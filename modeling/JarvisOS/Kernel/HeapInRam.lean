import JarvisOS.Foundations.Simulation
import JarvisOS.Kernel.ForeignBytes
import JarvisOS.Kernel.FailedGrowth
import JarvisOS.Kernel.HeapMapped
import JarvisOS.Physical.Mmu

/-!
# The heap in physical memory

The model of the heap gives its window a memory of its own. On the machine there is one memory: the
headers and payloads of the heap, the page directory, the page tables and everything else share it,
and the heap code reaches its words through the translation that the tables in this memory make.
`ramAct` executes the actions of the heap code there, and records an access that is not mapped.

`InRam` says that the machine is in the state of the model: the heap's bytes stand in the frames
that its pages lead to, and the other bytes are those of the model. Every action of the code below
the break keeps it (`InRam.act_local`), because the frames of the heap are no tables and no two of
its pages share one; and so does the growth of the heap (`InRam.growLoop`), because the paging code
does not notice what stands in these frames. So `kmalloc`, `kfree` and the shell's commands do on
the machine what they do in the model, and never fault (`heap_runs_in_ram`).
-/

namespace JarvisOS

open Foundations HeapOp Prog

/-! ## The machine -/

/-- Some byte of the word at `a` is not mapped. -/
def Paging.wordFaults (e : Paging) (a : ℕ) : Bool :=
  (List.range 4).any fun i => (e.physical (a + i)).isNone

/-- The heap's variables, the state of the paging code with all of physical memory, what has been
printed, and whether an access has faulted. -/
structure RamHeap where
  head : ℕ
  brk : ℕ
  ready : ℕ
  env : Paging
  out : List Output
  fault : Bool

namespace RamHeap

/-- Before `heap_init`. -/
def zeroed (e : Paging) : RamHeap := ⟨0, 0, 0, e, [], false⟩

/-- Virtual memory, as the processor sees it. -/
def mem (P : RamHeap) : Mem := Mem.view P.env.physical P.env.ram

/-- The machine after a byte has been stored. -/
def storeByte (P : RamHeap) (a : ℕ) (v : UInt8) : RamHeap :=
  { P with
    env := { P.env with ram := Mem.put P.env.physical P.env.ram a v }
    fault := P.fault || (P.env.physical a).isNone }

/-- The machine after a command on the page tables. -/
def onConsole (P : RamHeap) (r : List Output × Paging) : RamHeap :=
  { P with env := r.2, out := P.out ++ r.1 }

end RamHeap

/-- One action of the heap code, on the machine. -/
def ramAct : HeapOp → RamHeap → ℕ × RamHeap
  | getReady, P => (P.ready, P)
  | setReady v, P => (0, { P with ready := v })
  | getHead, P => (P.head, P)
  | setHead p, P => (0, { P with head := p })
  | getBrk, P => (P.brk, P)
  | setBrk v, P => (0, { P with brk := v })
  | load a, P => (P.mem.read32 a, { P with fault := P.fault || P.env.wordFaults a })
  | store a v, P => (0, { P with
      env := { P.env with ram := Mem.put32 P.env.physical P.env.ram a v }
      fault := P.fault || P.env.wordFaults a })
  | pmmAllocFrame, P =>
    ((kernelBacking.pmmAllocFrame P.env).1, { P with env := (kernelBacking.pmmAllocFrame P.env).2 })
  | pmmFreeFrame f, P => (0, { P with env := kernelBacking.pmmFreeFrame f P.env })
  | pagingMap v p fl, P =>
    ((kernelBacking.pagingMap v p fl P.env).1,
      { P with env := (kernelBacking.pagingMap v p fl P.env).2 })
  | print str, P => (0, { P with out := P.out ++ [.str str] })
  | printHex n, P => (0, { P with out := P.out ++ [.hex n] })

/-! ## The frames of the heap -/

/-- The bytes of the frames that the heap's pages below `top` lead to. -/
def heapBytes (pages : ℕ → Option ℕ) (top : ℕ) : Set ℕ :=
  {y | ∃ page a, heapStart / pageSize ≤ page ∧ page * pageSize < top ∧ pages page = some a ∧
    Paging.InFrame a y}

/-- The memory `r` of the machine, beside the window `mem` of the model and its page tables `e`: the
pages of the heap below `top` are mapped and their bytes stand in their frames, and off the frames
of the pages below `low` the memory is that of the model. -/
structure Shared (p₀ : Pmm) (frames : List ℕ) (low top : ℕ) (mem : Mem) (e : Paging)
    (tabs pages : ℕ → Option ℕ) (lost : Set ℕ) (r : Mem) : Prop where
  ledger : Ledger p₀ e tabs pages frames lost
  mapped : ∀ page, heapStart / pageSize ≤ page → page * pageSize < top → (pages page).isSome
  bytes : ∀ v a, heapStart ≤ v → v < top → pages (v / pageSize) = some a →
    r (a + v % pageSize) = mem v
  rest : ∀ y, y ∉ heapBytes pages low → r y = e.ram y

namespace Shared

variable {p₀ : Pmm} {frames : List ℕ} {low top : ℕ} {mem r : Mem} {e : Paging}
  {tabs pages : ℕ → Option ℕ}
  {lost : Set ℕ} {v a : ℕ}

/-- The pages of the heap lie outside the identity window. -/
theorem low_le (h : Ledger p₀ e tabs pages frames lost) :
    e.identityEnd / pageSize ≤ heapStart / pageSize :=
  Nat.div_le_div_right (h.window.trans identityBytes_le_heapStart)

/-- **The frames of the heap are none of the paging code's business.** -/
theorem foreign (h : Ledger p₀ e tabs pages frames lost) (top : ℕ) :
    e.Foreign tabs (heapBytes pages top) := by
  have hframe : ∀ y ∈ heapBytes pages top, ∃ f, e.pmm.frameTest f = true ∧
      Paging.InFrame (4096 * f) y ∧ 4096 * f ≠ e.pageDirectory ∧ ∀ i, tabs i ≠ some (4096 * f) := by
    rintro y ⟨page, a, hlo, -, ha, hy⟩
    obtain ⟨f, rfl, -, -, hf, hdir, htab⟩ := h.entry_frame ((low_le h).trans hlo) ha
    exact ⟨f, hf, hy, hdir, htab⟩
  refine ⟨fun y hy => ?_, fun y hy hin => ?_, fun y hy i t ht hin => ?_⟩ <;>
    obtain ⟨f, hf, hyf, hdir, htab⟩ := hframe y hy
  · obtain rfl : y / pageSize = f := by
      simp only [Paging.InFrame, pageSize] at hyf ⊢
      omega
    exact hf
  · exact hdir (hyf.symm.trans hin)
  · exact htab i (ht.trans (congrArg some (hin.symm.trans hyf)))

/-- The machine's page tables are those of the model. -/
theorem env_eq (h : Shared p₀ frames low top mem e tabs pages lost r) :
    { e with ram := r } = e.patched (heapBytes pages low) r :=
  (h.ledger.map.write_foreign (foreign h.ledger low) h.rest).1

/-- Where a page of the heap leads, on the machine. -/
theorem physical (h : Shared p₀ frames low top mem e tabs pages lost r) (h1 : heapStart ≤ v)
    (hv : v < 2 ^ 32) (ha : pages (v / pageSize) = some a) :
    { e with ram := r }.physical v = some (a + v % pageSize) := by
  have hend := h.ledger.window.trans identityBytes_le_heapStart
  have htrans := h.ledger.translate_mapped (hend.trans h1) hv ha
  obtain ⟨f, rfl, -, hlt, -⟩ :=
    h.ledger.entry_frame ((low_le h.ledger).trans (Nat.div_le_div_right h1)) ha
  have hsmall := h.ledger.map.sound.sized.total_lt
  have hne : 4096 * f + v % pageSize ≠ pageUnmapped := by
    simp only [pageUnmapped, pageSize]
    omega
  rw [h.env_eq, Paging.physical, h.ledger.map.pagingTranslate_patched (foreign h.ledger low) hv,
    htrans, if_neg hne]

/-- No two pages of the heap share a frame. -/
theorem page_unique (h : Ledger p₀ e tabs pages frames lost) {page page' : ℕ}
    (hp : heapStart / pageSize ≤ page) (hp' : heapStart / pageSize ≤ page')
      (ha : pages page = some a)
    (ha' : pages page' = some a) : page = page' := by
  have hsame := h.books.holders.unique (.entry page) (.entry page') a
    ((if_pos ((low_le h).trans hp)).trans ha) ((if_pos ((low_le h).trans hp')).trans ha')
  exact Holder.entry.inj hsame

/-- The addresses of the heap below `top`. -/
abbrev window (top : ℕ) : Set ℕ := {v | heapStart ≤ v ∧ v < top}

theorem exists_page (h : Shared p₀ frames low top mem e tabs pages lost r) (hv : v ∈ window top) :
    ∃ f, pages (v / pageSize) = some (4096 * f) := by
  have hpage := Nat.div_le_div_right (c := pageSize) hv.1
  have hsome := h.mapped _ hpage ((Nat.div_mul_le_self v pageSize).trans_lt hv.2)
  obtain ⟨a, ha⟩ := Option.isSome_iff_exists.1 hsome
  obtain ⟨f, rfl, -⟩ := h.ledger.entry_frame ((low_le h.ledger).trans hpage) ha
  exact ⟨f, ha⟩

/-- **Addresses of the heap lead to bytes of their own.** -/
theorem injects (h : Shared p₀ frames low top mem e tabs pages lost r) (htop : top ≤ 2 ^ 32) :
    Mem.Injects { e with ram := r }.physical (window top) := by
  refine ⟨fun v hv => ?_, fun v hv w hw heq => ?_⟩
  · obtain ⟨f, hf⟩ := h.exists_page hv
    rw [h.physical hv.1 (hv.2.trans_le htop) hf]
    rfl
  · obtain ⟨f, hf⟩ := h.exists_page hv
    obtain ⟨g, hg⟩ := h.exists_page hw
    rw [h.physical hv.1 (hv.2.trans_le htop) hf, h.physical hw.1 (hw.2.trans_le htop) hg,
      Option.some_inj] at heq
    obtain rfl : f = g := by
      simp only [pageSize] at heq
      omega
    have := page_unique h.ledger (Nat.div_le_div_right hv.1) (Nat.div_le_div_right hw.1) hf hg
    simp only [pageSize] at *
    omega

/-- The processor sees the bytes of the heap. -/
theorem view (h : Shared p₀ frames low top mem e tabs pages lost r) (htop : top ≤ 2 ^ 32)
    (hv : v ∈ window top) : Mem.view { e with ram := r }.physical r v = mem v := by
  obtain ⟨f, hf⟩ := h.exists_page hv
  rw [Mem.view_of_some (h.physical hv.1 (hv.2.trans_le htop) hf), h.bytes v _ hv.1 hv.2 hf]

theorem wordFaults (h : Shared p₀ frames low top mem e tabs pages lost r) (htop : top ≤ 2 ^ 32)
    (h1 : heapStart ≤ a) (h2 : a + 4 ≤ top) : { e with ram := r }.wordFaults a = false := by
  refine List.any_eq_false.2 fun i hi => ?_
  have hi := List.mem_range.1 hi
  have hsome := (h.injects htop).isSome (a + i) ⟨by omega, by omega⟩
  obtain ⟨y, hy⟩ := Option.isSome_iff_exists.1 hsome
  rw [hy]
  simp

/-- **A store into the heap.** The bytes it changes in the machine's memory are those that it
changes in the window. -/
theorem store (h : Shared p₀ frames top top mem e tabs pages lost r) (htop : top ≤ 2 ^ 32)
    {r' mem' : Mem}
    (hview : ∀ v ∈ window top, Mem.view { e with ram := r }.physical r' v = mem' v)
    (hkeep : ∀ y, (∀ v ∈ window top, { e with ram := r }.physical v ≠ some y) → r' y = r y) :
    Shared p₀ frames top top mem' e tabs pages lost r' := by
  refine ⟨h.ledger, h.mapped, fun v a h1 h2 ha => ?_, fun y hy => ?_⟩
  · rw [← hview v ⟨h1, h2⟩, Mem.view_of_some (h.physical h1 (h2.trans_le htop) ha)]
  · rw [hkeep y fun v hv hp => hy ?_, h.rest y hy]
    obtain ⟨f, hf⟩ := h.exists_page hv
    rw [h.physical hv.1 (hv.2.trans_le htop) hf, Option.some_inj] at hp
    refine ⟨v / pageSize, 4096 * f, Nat.div_le_div_right hv.1,
      (Nat.div_mul_le_self v pageSize).trans_lt hv.2, hf, ?_⟩
    simp only [Paging.InFrame, pageSize] at *
    omega

end Shared

/-! ## The machine in the state of the model -/

/-- **The machine is in the state of the model**: its variables and page tables are those of the
model, nothing has faulted, and its memory is shared out as `Shared` says. -/
structure InRam (p₀ : Pmm) (frames : List ℕ) (low top : ℕ) (s : HeapState Paging) (P : RamHeap) :
    Prop where
  head : P.head = s.head
  brk : P.brk = s.brk
  ready : P.ready = s.ready
  out : P.out = s.out
  noFault : P.fault = false
  env : P.env = { s.env with ram := P.env.ram }
  shared : ∃ tabs pages lost, Shared p₀ frames low top s.mem s.env tabs pages lost P.env.ram

namespace InRam

variable {p₀ : Pmm} {frames : List ℕ} {low top : ℕ} {s t : HeapState Paging} {P : RamHeap}

theorem mem_eq (h : InRam p₀ frames low top s P) (htop : top ≤ 2 ^ 32) {v : ℕ}
    (hv : v ∈ Shared.window top) : P.mem v = s.mem v := by
  obtain ⟨tabs, pages, lost, hs⟩ := h.shared
  rw [RamHeap.mem, h.env]
  exact hs.view htop hv

/-- The page tables lead where they do in the model. -/
theorem translate (h : InRam p₀ frames low top s P) {v : ℕ} (hv : v < 2 ^ 32) :
    P.env.pagingTranslate v = s.env.pagingTranslate v := by
  obtain ⟨tabs, pages, lost, hs⟩ := h.shared
  rw [h.env, hs.env_eq]
  exact hs.ledger.map.pagingTranslate_patched (Shared.foreign hs.ledger low) hv

theorem wordFaults (h : InRam p₀ frames low top s P) (htop : top ≤ 2 ^ 32) {a : ℕ}
    (h1 : heapStart ≤ a)
    (h2 : a + 4 ≤ top) : P.env.wordFaults a = false := by
  obtain ⟨tabs, pages, lost, hs⟩ := h.shared
  rw [h.env]
  exact hs.wordFaults htop h1 h2

/-- Storing through the translation of the machine. -/
theorem store (h : InRam p₀ frames top top s P) (htop : top ≤ 2 ^ 32) {r : Mem} {m : Mem}
    {fault : Bool}
    (hfault : fault = false) (hview : ∀ v ∈ Shared.window top, Mem.view P.env.physical r v = m v)
    (hkeep : ∀ y, (∀ v ∈ Shared.window top, P.env.physical v ≠ some y) → r y = P.env.ram y) :
    InRam p₀ frames top top (s.setMem m)
      { P with env := { P.env with ram := r }, fault := fault } := by
  obtain ⟨tabs, pages, lost, hs⟩ := h.shared
  rw [h.env] at hview hkeep
  refine ⟨h.head, h.brk, h.ready, h.out, hfault, ?_, tabs, pages, lost, hs.store htop hview hkeep⟩
  show { P.env with ram := r } = { s.env with ram := r }
  rw [h.env]

theorem store32 (h : InRam p₀ frames top top s P) (htop : top ≤ 2 ^ 32) {a v : ℕ}
    (h1 : heapStart ≤ a)
    (h2 : a + 4 ≤ top) :
    InRam p₀ frames top top (s.setMem (s.mem.write32 a v)) (ramAct (.store a v) P).2 := by
  obtain ⟨tabs, pages, lost, hs⟩ := h.shared
  have hinj := hs.injects htop
  rw [← h.env] at hinj
  have hin : ∀ i < 4, a + i ∈ Shared.window top := fun i hi => ⟨by omega, by omega⟩
  refine h.store htop ?_ (fun x hx => ?_) fun y hy => ?_
  · rw [h.noFault, h.wordFaults htop h1 h2]
    rfl
  · rw [Mem.view_put32 hinj hin hx]
    have hword : ∀ x ∈ Shared.window top, Mem.view P.env.physical P.env.ram x = s.mem x :=
      fun x hx => h.mem_eq htop hx
    unfold Mem.write32
    rw [hword x hx]
  · exact Mem.put32_apply_of_ne fun i hi z hz e => hy (a + i) (hin i hi) (e ▸ hz)

theorem storeByte (h : InRam p₀ frames top top s P) (htop : top ≤ 2 ^ 32) {a : ℕ} (v : UInt8)
    (ha : a ∈ Shared.window top) : InRam p₀ frames top top (s.setMem (s.mem.write8 a v))
      (P.storeByte a v) := by
  obtain ⟨tabs, pages, lost, hs⟩ := h.shared
  have hinj := hs.injects htop
  rw [← h.env] at hinj
  refine h.store htop ?_ (fun x hx => ?_) fun y hy => ?_
  · obtain ⟨z, hz⟩ := Option.isSome_iff_exists.1 (hinj.isSome a ha)
    rw [h.noFault, hz]
    rfl
  · rw [Mem.view_put hinj ha hx]
    exact Mem.write8_congr (h.mem_eq htop hx)
  · exact Mem.put_apply_of_ne fun z hz e => hy a ha (e ▸ hz)

/-- **An action below the break** does on the machine what it does in the model. -/
theorem act_local (h : InRam p₀ frames top top s P) (htop : top ≤ 2 ^ 32) {o : HeapOp}
    (ho : o.Local)
    {r : ℕ} (hS : InWindow heapStart top o r) :
    (ramAct o P).1 = (heapAct kernelBacking o s).1 ∧
      InRam p₀ frames top top (heapAct kernelBacking o s).2 (ramAct o P).2 := by
  cases o with
  | setBrk | pmmAllocFrame | pmmFreeFrame | pagingMap => exact absurd ho id
  | getReady => exact ⟨h.ready, h⟩
  | setReady v => exact ⟨rfl, { h with ready := rfl }⟩
  | getHead => exact ⟨h.head, h⟩
  | setHead v => exact ⟨rfl, { h with head := rfl }⟩
  | getBrk => exact ⟨h.brk, h⟩
  | load a =>
    refine ⟨Mem.read32_congr fun x h1 h2 => h.mem_eq htop ⟨hS.1.trans h1, by have := hS.2; omega⟩,
      { h with noFault := ?_ }⟩
    show (P.fault || P.env.wordFaults a) = false
    rw [h.noFault, h.wordFaults htop hS.1 hS.2]
    rfl
  | store a v => exact ⟨rfl, h.store32 htop hS.1 hS.2⟩
  | print str => exact ⟨rfl, { h with out := congrArg (· ++ [Output.str str]) h.out }⟩
  | printHex n => exact ⟨rfl, { h with out := congrArg (· ++ [Output.hex n]) h.out }⟩

/-- **A part of the code that stays below the break** does on the machine what it does in the
model. -/
theorem simulates {α : Type} {p : HeapM α} {a : α} (h : InRam p₀ frames top top s P)
    (htop : top ≤ 2 ^ 32)
    (hp : Only Local p) (hrun : Runs (heapAct kernelBacking) (InWindow heapStart top) p s a t) :
    Simulates (heapAct kernelBacking) ramAct (InRam p₀ frames top top) p s P :=
  hrun.simulates hp (fun _ _ _ ho hS hsim => hsim.act_local htop ho hS) h

end InRam

/-! ## Growing -/

theorem showFrame_of_page {m : Mem} {virt phys y : ℕ} {b : ℕ → UInt8}
    (h : y / pageSize = virt / pageSize) :
    showFrame m virt phys b y = b (phys / pageSize * pageSize + y % pageSize) := if_pos h

theorem showFrame_of_ne {m : Mem} {virt phys y : ℕ} {b : ℕ → UInt8}
    (h : y / pageSize ≠ virt / pageSize) :
    showFrame m virt phys b y = m y := if_neg h

/-- A page granted, in the model. -/
theorem mapPage_of_mapFresh {s : HeapState Paging} {virt frame : ℕ} {t : Paging}
    (h : s.env.mapFresh virt = (some frame, t)) : mapPage kernelBacking virt s =
      (true, { s with env := t, mem := showFrame s.mem virt frame t.ram }) := by
  simp only [Paging.mapFresh] at h
  by_cases h0 : s.env.pmm.pmmAllocFrame.1 = 0
  · rw [if_pos h0] at h
    cases h
  rw [if_neg h0] at h
  by_cases h1 : (Paging.pagingMap virt s.env.pmm.pmmAllocFrame.1 pageWrite
      { s.env with pmm := s.env.pmm.pmmAllocFrame.2 }).1 = 0
  · rw [if_pos h1] at h
    cases h
  rw [if_neg h1] at h
  obtain ⟨rfl, rfl⟩ := Prod.mk.inj h |>.imp_left Option.some.inj
  simp [mapPage, kernelBacking, h0, h1]

/-- A page refused, in the model. -/
theorem mapPage_of_refused {s : HeapState Paging} {virt : ℕ}
    (h : s.env.mapFresh virt = (none, s.env)) :
    mapPage kernelBacking virt s = (false, s) := by
  obtain ⟨hgranted, henv⟩ := mapPage_kernelBacking virt s
  obtain ⟨⟨hhead, hbrk, hready, hout⟩, hmem⟩ := mapPage_spec (B := kernelBacking) virt s
  rw [h] at hgranted henv
  have hmem : (mapPage kernelBacking virt s).2.mem = s.mem :=
    funext fun y => hmem y (Or.inr hgranted)
  refine Prod.ext hgranted ?_
  generalize (mapPage kernelBacking virt s).2 = u at *
  cases u
  cases s
  simp only at henv hmem hhead hbrk hready hout
  rw [henv, hmem, hhead, hbrk, hready, hout]

/-- One iteration of `grow_mapping`, on the machine. -/
theorem run_growLoop_ram (P : RamHeap) {pages off v : ℕ} (hv : u32 (P.brk + off) = v) :
    run ramAct (growLoop (pages + 1) off) P =
      if (P.env.mapFresh v).1.isSome then
        run ramAct (growLoop pages (u32 (off + pageSize))) { P with env := (P.env.mapFresh v).2 }
      else some (0, { P with env := (P.env.mapFresh v).2 }) := by
  subst hv
  unfold Paging.mapFresh
  by_cases h0 : P.env.pmm.pmmAllocFrame.1 = 0
  · simp [growLoop, run_act, ramAct, kernelBacking, h0]
  by_cases h1 : (Paging.pagingMap (u32 (P.brk + off)) P.env.pmm.pmmAllocFrame.1 pageWrite
      { P.env with pmm := P.env.pmm.pmmAllocFrame.2 }).1 = 0
  · simp [growLoop, run_act, ramAct, kernelBacking, h0, h1]
  · simp [growLoop, run_act, ramAct, kernelBacking, h0, h1]

namespace Shared

variable {p₀ : Pmm} {frames : List ℕ} {low top : ℕ} {mem r : Mem} {e t : Paging}
  {tabs pages : ℕ → Option ℕ}
  {lost : Set ℕ} {v a f : ℕ}

/-- The paging code leaves the frames of the heap as they are. -/
theorem mapFresh_ram (h : Ledger p₀ e tabs pages frames lost) (hv : v < 2 ^ 32) (top : ℕ) {y : ℕ}
    (hy : y ∈ heapBytes pages top) : (e.mapFresh v).2.ram y = e.ram y := by
  have hover := h.map.mapFresh_patched (r := e.ram) (foreign h top) hv
  have hself : e.patched (heapBytes pages top) e.ram = e := by
    rw [Paging.patched, ← Mem.eq_overlay fun _ _ => rfl]
  rw [hself] at hover
  rw [congrArg Prod.snd hover, Paging.patched_ram, Mem.overlay_of_mem hy]

/-- **The page at the break is mapped to a fresh frame.** -/
theorem grow (h : Shared p₀ frames low top mem e tabs pages lost r) (hle : low ≤ top)
    (hpage : pageSize ∣ top)
    (h1 : heapStart ≤ top) (h2 : top < 2 ^ 32) : e.mapFresh top = (none, e) ∨
      ∃ f t tabs' lost', e.mapFresh top = (some (4096 * f), t) ∧
        Shared p₀ frames low (top + pageSize) (showFrame mem top (4096 * f) t.ram) t tabs'
          (Function.update pages (top / pageSize) (some (4096 * f))) lost'
          (Mem.overlay (heapBytes pages low) r t.ram) := by
  have hend := h.ledger.window.trans identityBytes_le_heapStart
  rcases h.ledger.mapFresh (hend.trans h1) h2 with e0 | ⟨f, t, tabs', efresh, hboot, hnext⟩
  · exact Or.inl e0
  refine Or.inr ⟨f, t, tabs', _, efresh, hnext, fun page hlo hhi => ?_, fun v a hv1 hv2 ha => ?_,
    fun y hy => ?_⟩
  · by_cases hp : page = top / pageSize
    · rw [hp, Function.update_self]
      rfl
    · rw [Function.update_of_ne hp]
      refine h.mapped page hlo ?_
      obtain ⟨k, rfl⟩ := hpage
      simp only [pageSize] at *
      omega
  · -- the fresh frame, or a page mapped before
    by_cases hp : v / pageSize = top / pageSize
    · rw [hp, Function.update_self] at ha
      obtain rfl := Option.some.inj ha
      have hfree : e.pmm.frameTest f = false := by
        rcases h.ledger.map.mapFresh_cases h2 with e0 | ⟨g, _, _, -, hg, -, -, e0, -⟩
        · rw [efresh] at e0
          cases e0
        · rw [efresh] at e0
          obtain rfl : f = g := by
            have := Option.some.inj (Prod.mk.inj e0).1
            omega
          exact hg.1.2
      have hmod : v % pageSize < pageSize := Nat.mod_lt _ (by decide)
      have hnot := Paging.PageMap.notMem_of_free (foreign h.ledger low) hfree
        (y := 4096 * f + v % pageSize) (by omega) (by omega)
      have hround : 4096 * f / pageSize * pageSize = 4096 * f := Nat.div_mul_cancel ⟨f, rfl⟩
      refine (Mem.overlay_of_notMem hnot).trans (.trans ?_ (showFrame_of_page hp).symm)
      rw [hround]
    · rw [Function.update_of_ne hp] at ha
      have hv2 : v < top := by
        obtain ⟨k, rfl⟩ := hpage
        simp only [pageSize] at *
        omega
      have hold : a + v % pageSize ∈ heapBytes pages top := by
        obtain ⟨g, hg⟩ := h.exists_page ⟨hv1, hv2⟩
        obtain rfl := Option.some.inj (hg.symm.trans ha)
        refine ⟨v / pageSize, _, Nat.div_le_div_right hv1,
          (Nat.div_mul_le_self v pageSize).trans_lt hv2, ha, ?_⟩
        simp only [Paging.InFrame, pageSize]
        omega
      have hkept := mapFresh_ram h.ledger h2 top hold
      rw [efresh] at hkept
      refine .trans ?_ ((showFrame_of_ne hp).trans (h.bytes v a hv1 hv2 ha).symm).symm
      by_cases hK : a + v % pageSize ∈ heapBytes pages low
      · exact Mem.overlay_of_mem hK
      · rw [Mem.overlay_of_notMem hK, hkept, h.rest _ hK]
  · refine Mem.overlay_of_notMem fun hin => hy ?_
    obtain ⟨page, a, hlo, hhi, ha, hya⟩ := hin
    refine ⟨page, a, hlo, hhi, ?_, hya⟩
    rw [Function.update_of_ne]
    · exact ha
    · rintro rfl
      obtain ⟨k, rfl⟩ := hpage
      simp only [pageSize] at *
      omega

/-- **A command on the page tables** that leaves the heap's pages alone. -/
theorem command (h : Shared p₀ frames top top mem e tabs pages lost r) {e' : Paging}
    {tabs' pages' : ℕ → Option ℕ} {lost' : Set ℕ} (hnext : Ledger p₀ e' tabs' pages' frames lost')
    (hsame : ∀ page, heapStart / pageSize ≤ page → page * pageSize < top →
      pages' page = pages page) :
    Shared p₀ frames top top mem e' tabs' pages' lost'
      (Mem.overlay (heapBytes pages top) r e'.ram) := by
  have hwin : ∀ v, heapStart ≤ v → v < top → pages' (v / pageSize) = pages (v / pageSize) :=
    fun v h1 h2 =>
    hsame _ (Nat.div_le_div_right h1) ((Nat.div_mul_le_self v pageSize).trans_lt h2)
  refine ⟨hnext, fun page h1 h2 => (hsame page h1 h2).symm ▸ h.mapped page h1 h2,
    fun v a h1 h2 ha => ?_, fun y hy => Mem.overlay_of_notMem fun ⟨page, a, h1, h2, ha, hin⟩ =>
      hy ⟨page, a, h1, h2, (hsame page h1 h2).trans ha, hin⟩⟩
  rw [hwin v h1 h2] at ha
  rw [← h.bytes v a h1 h2 ha]
  obtain ⟨f, hf⟩ := h.exists_page ⟨h1, h2⟩
  obtain rfl := Option.some.inj (hf.symm.trans ha)
  refine Mem.overlay_of_mem ⟨v / pageSize, _, Nat.div_le_div_right h1,
    (Nat.div_mul_le_self v pageSize).trans_lt h2, ha, ?_⟩
  simp only [Paging.InFrame, pageSize]
  omega

theorem narrow (h : Shared p₀ frames low top mem e tabs pages lost r) {top' : ℕ}
    (hle : top' ≤ top) :
    Shared p₀ frames low top' mem e tabs pages lost r :=
  ⟨h.ledger, fun page h1 h2 => h.mapped page h1 (h2.trans_le hle),
    fun v a h1 h2 => h.bytes v a h1 (h2.trans_le hle), h.rest⟩

theorem widen (h : Shared p₀ frames low top mem e tabs pages lost r) {low' : ℕ} (hle : low ≤ low') :
    Shared p₀ frames low' top mem e tabs pages lost r :=
  ⟨h.ledger, h.mapped, h.bytes, fun y hy => h.rest y fun ⟨page, a, h1, h2, hrest⟩ =>
    hy ⟨page, a, h1, h2.trans_le hle, hrest⟩⟩

end Shared

/-- The machine is in the state of the model, for the heap up to its break. -/
abbrev SameHeap (p₀ : Pmm) (frames : List ℕ) (s : HeapState Paging) (P : RamHeap) : Prop :=
  InRam p₀ frames s.brk s.brk s P

/-- Code that leaves the break alone. -/
theorem brk_of_local {α : Type} {p : HeapM α} {s t : HeapState Paging} {a : α} (hp : Only Local p)
    (hrun : run (heapAct kernelBacking) p s = some (a, t)) : t.brk = s.brk := by
  induction p generalizing s with
  | ret b =>
    obtain ⟨-, rfl⟩ := Prod.mk.inj (Option.some.inj hrun)
    rfl
  | act o k ih => exact (ih _ (hp.2 _) hrun).trans (Prod.mk.inj (heapAct_local hp.1 s)).2
  | spin => cases hrun

namespace InRam

variable {p₀ : Pmm} {frames : List ℕ} {low top : ℕ} {s t : HeapState Paging} {P : RamHeap}

theorem simulates_same {α : Type} {p : HeapM α} {a : α} (h : SameHeap p₀ frames s P)
    (hbrk : s.brk ≤ 2 ^ 32)
    (hp : Only Local p) (hrun : Runs (heapAct kernelBacking) (InWindow heapStart s.brk) p s a t) :
    Simulates (heapAct kernelBacking) ramAct (SameHeap p₀ frames) p s P := by
  obtain ⟨Q, hQ, hsame⟩ := h.simulates hbrk hp hrun a t hrun.1
  refine .of_run hrun.1 ⟨Q, hQ, ?_⟩
  show InRam p₀ frames t.brk t.brk t Q
  rwa [brk_of_local hp hrun.1]

/-- **The loop of `grow_mapping`** maps on the machine the pages that it maps in the model. -/
theorem growLoop {count off : ℕ} (h : InRam p₀ frames low top s P) (hle : low ≤ top)
    (hpage : pageSize ∣ top)
    (h1 : heapStart ≤ top) (hoff : u32 (s.brk + off) = top)
    (hend : top + (mapPages kernelBacking count top s).1 * pageSize ≤ heapStart + heapMax) :
    ∃ Q, run ramAct (growLoop count off) P =
        some (if (mapPages kernelBacking count top s).1 = count then 1 else 0, Q) ∧
      InRam p₀ frames low (top + (mapPages kernelBacking count top s).1 * pageSize)
        (mapPages kernelBacking count top s).2 Q := by
  induction count generalizing off s P top with
  | zero =>
    refine ⟨P, rfl, ?_⟩
    simp only [mapPages, Nat.zero_mul, Nat.add_zero]
    exact h
  | succ count ih =>
    have hwl := window_lt
    have htop : top < 2 ^ 32 := hoff ▸ u32_lt _
    obtain ⟨tabs, pages, lost, hs⟩ := h.shared
    have hover : P.env.mapFresh top = ((s.env.mapFresh top).1,
        (s.env.mapFresh top).2.patched (heapBytes pages low) P.env.ram) := by
      conv_lhs => rw [h.env, hs.env_eq]
      exact hs.ledger.map.mapFresh_patched (Shared.foreign hs.ledger low) htop
    rw [run_growLoop_ram P (h.brk.symm ▸ hoff), hover]
    rcases hs.grow hle hpage h1 htop with e | ⟨f, t, tabs', lost', e, hs'⟩
    · have hrefused := mapPage_of_refused e
      rw [mapPages_succ_of_refused (congrArg Prod.fst hrefused), hrefused, e]
      dsimp only
      rw [Option.isSome_none, if_neg Bool.false_ne_true, if_neg (Nat.succ_ne_zero count).symm,
        ← hs.env_eq, ← h.env, Nat.zero_mul, Nat.add_zero]
      exact ⟨P, rfl, h⟩
    · have hgranted := mapPage_of_mapFresh e
      rw [mapPages_succ_of_granted (congrArg Prod.fst hgranted)] at hend ⊢
      rw [hgranted, Nat.succ_mul] at hend
      rw [hgranted, e]
      dsimp only at hend ⊢
      rw [Option.isSome_some, if_pos rfl]
      have hnext : u32 (top + pageSize) = top + pageSize := u32_of_lt (by omega)
      rw [hnext] at hend ⊢
      have hgrown : InRam p₀ frames low (top + pageSize)
          { s with env := t, mem := showFrame s.mem top (4096 * f) t.ram }
          { P with env := t.patched (heapBytes pages low) P.env.ram } :=
        ⟨h.head, h.brk, h.ready, h.out, h.noFault, rfl, tabs', _, lost', hs'⟩
      have hoff' : u32 (s.brk + u32 (off + pageSize)) = top + pageSize := by
        rw [← hnext, ← hoff]
        unfold u32
        omega
      obtain ⟨Q, hrun, hQ⟩ := ih hgrown (hle.trans (Nat.le_add_right _ _))
        (Nat.dvd_add hpage dvd_rfl)
        (h1.trans (Nat.le_add_right _ _)) hoff' (by omega)
      refine ⟨Q, ?_, ?_⟩
      · rw [hrun]
        simp only [Nat.add_right_cancel_iff]
      · rwa [Nat.succ_mul, Nat.add_comm _ pageSize, ← Nat.add_assoc]

/-- **`grow_mapping`** does on the machine what it does in the model. -/
theorem growMapping {bytes pages : ℕ} (h : SameHeap p₀ frames s P)
    (hp : roundPages bytes = pages * pageSize)
    (h1 : heapStart ≤ s.brk) (hpage : pageSize ∣ s.brk) (hlt : s.brk + pages * pageSize < 2 ^ 32) :
    Simulates (heapAct kernelBacking) ramAct (SameHeap p₀ frames) (growMapping bytes) s P := by
  have hdiv : pages * pageSize / pageSize = pages := Nat.mul_div_cancel _ (by decide)
  have hsame := (mapPages_spec (B := kernelBacking) pages s.brk s).1.2.1
  have hcount := mapPages_le (B := kernelBacking) pages s.brk s
  have hoff : u32 (s.brk + 0) = s.brk := u32_of_lt (by omega)
  have hloop : run (heapAct kernelBacking) (JarvisOS.growLoop pages 0) s = _ := run_growLoop hoff
  simp only [JarvisOS.growMapping, hp, hdiv]
  refine simulates_act h.brk ?_
  show Simulates _ _ _
    (if u32 (s.brk + pages * pageSize) > u32 (heapStart + heapMax) then _ else _) s P
  by_cases hceil : u32 (s.brk + pages * pageSize) > u32 (heapStart + heapMax)
  · rw [if_pos hceil]
    exact simulates_ret h
  rw [if_neg hceil]
  rw [u32_of_lt hlt, u32_of_lt window_lt] at hceil
  have hmul := Nat.mul_le_mul_right pageSize hcount
  have hend : s.brk + (mapPages kernelBacking pages s.brk s).1 * pageSize ≤ heapStart +
    heapMax := by omega
  have hsimulates : Simulates (heapAct kernelBacking) ramAct
      (InRam p₀ frames s.brk (s.brk + (mapPages kernelBacking pages s.brk s).1 * pageSize))
      (JarvisOS.growLoop pages 0) s P := .of_run hloop (h.growLoop le_rfl hpage h1 hoff hend)
  refine hsimulates.bind_of_run hloop fun R hR => ?_
  obtain ⟨tabs, mapped, lost, hs⟩ := hR.shared
  by_cases hall : (mapPages kernelBacking pages s.brk s).1 = pages
  · rw [if_pos hall, if_neg Nat.one_ne_zero]
    have hnew : u32 ((mapPages kernelBacking pages s.brk s).2.brk + pages * pageSize) =
        s.brk + pages * pageSize := by rw [hsame, u32_of_lt hlt]
    refine simulates_act hR.brk (simulates_act rfl (simulates_ret ?_))
    show SameHeap p₀ frames { (mapPages kernelBacking pages s.brk s).2 with
      brk := u32 ((mapPages kernelBacking pages s.brk s).2.brk + pages * pageSize) } _
    rw [hnew]
    rw [hall] at hs
    exact ⟨hR.head, hnew, hR.ready, hR.out, hR.noFault, hR.env, tabs, mapped, lost,
      hs.widen (Nat.le_add_right _ _)⟩
  · rw [if_neg hall, if_pos rfl]
    refine simulates_ret ?_
    show InRam p₀ frames (mapPages kernelBacking pages s.brk s).2.brk _ _ _
    rw [hsame]
    exact ⟨hR.head, hR.brk, hR.ready, hR.out, hR.noFault, hR.env, tabs, mapped, lost,
      hs.narrow (Nat.le_add_right _ _)⟩

/-- The part of `kmalloc` that takes a block. -/
theorem attemptLoop_found {pre post : List Seg} {x : Seg} {size : ℕ} (attempts : ℕ)
    (h : SameHeap p₀ frames s P) (ht : Tiled s (pre ++ x :: post)) (hpre : ∀ y ∈ pre, ¬ y.Fits size)
    (hx : x.Fits size) :
    Simulates (heapAct kernelBacking) ramAct (SameHeap p₀ frames) (attemptLoop size (attempts + 1))
      s P := by
  obtain ⟨p, t, hrun, -⟩ := runs_searchLoop (B := kernelBacking) ht hpre hx
  rw [attemptLoop]
  refine simulates_act h.head ?_
  exact (simulates_same h ht.brk_lt.le (only_searchLoop ..) hrun).bind_of_run hrun.1
    fun Q hQ => simulates_ret hQ

/-- **`kmalloc`** does on the machine what it does in the model. -/
theorem kmalloc {l : List Seg} {n : ℕ} (h : SameHeap p₀ frames s P) (ht : Tiled s l) (h1 : 1 ≤ n)
    (h2 : n ≤ heapMax) :
    Simulates (heapAct kernelBacking) ramAct (SameHeap p₀ frames) (kmalloc n) s P := by
  obtain ⟨-, -, hsize⟩ := payloadSize_align8 h1 (h2.trans_lt (by decide))
  have hw : GrowthInWindow kernelBacking (align8 n) s := growthInWindow_of_le ht h2
  have hlt := growth_lt_of_le ht h2
  have hstart : heapStart ≤ s.brk := ht.tiles ▸ Nat.le_add_right _ _
  rw [JarvisOS.kmalloc]
  refine simulates_act h.ready ?_
  show Simulates _ _ _
    (if s.ready = 0 then _ else if n = 0 then _ else attemptLoop (align8 n) 2) s P
  rw [ht.ready, if_neg Nat.one_ne_zero, if_neg (by omega)]
  generalize align8 n = size at hw hsize hlt ⊢
  rcases Seg.firstFit size l with hno | ⟨pre, x, post, rfl, hpre, hx⟩
  swap
  · exact h.attemptLoop_found 1 ht hpre hx
  have hsearch := runs_searchLoop_none (B := kernelBacking) loadsIn_inWindow ht.length_lt ht.headers
    (ht.spans le_rfl ht.brk_lt) hno
  have hlink : linkTo heapStart l 0 = s.head := by
    obtain ⟨x, l', rfl⟩ := List.exists_cons_of_ne_nil ht.ne_nil
    exact ht.head.symm
  rw [hlink] at hsearch
  rw [attemptLoop]
  refine simulates_act h.head ?_
  refine (h.simulates ht.brk_lt.le (only_searchLoop ..) hsearch).bind_of_run hsearch.1
    fun Q hQ => ?_
  show Simulates _ _ _ (extendHeap size >>= fun extended =>
    if extended = 0 then ret 0 else attemptLoop size 1) s Q
  rw [extendHeap_eq, bind_assoc]
  refine simulates_act hQ.brk ?_
  show Simulates _ _ _ ((JarvisOS.growMapping (wantBytes size) >>= fun grown =>
    if grown = 0 then ret 0 else appendBlock s.brk) >>= fun extended =>
      if extended = 0 then ret 0 else attemptLoop size 1) s Q
  rw [bind_assoc]
  refine (growMapping hQ (growthPages_spec hsize).1 hstart ht.page hlt).bind fun r g R hrun hR => ?_
  by_cases hall : s.brk + growthPages size * pageSize ≤ heapStart + heapMax ∧
      (mapPages kernelBacking (growthPages size) s.brk s).1 = growthPages size
  · obtain ⟨g', m, u, hgrown, hblock, -, hbrk, hu⟩ :=
      runs_extendHeap_granted (B := kernelBacking) ht hsize hall.1 hall.2
    obtain ⟨rfl, rfl⟩ := hgrown.unique hrun
    rw [if_neg Nat.one_ne_zero]
    refine (simulates_same hR (hbrk ▸ hlt.le) (only_appendBlock _) hblock).bind_of_run hblock.1
      fun U hU => ?_
    rw [if_neg Nat.one_ne_zero]
    obtain ⟨pre, x, post, e, hpre, hx⟩ := exists_firstFit_grown hsize l
    exact attemptLoop_found 0 hU (e ▸ hu.tiled ht) hpre hx
  · rw [if_pos (growMapping_eq_zero ht hsize hw hall hrun), ret_bind, if_pos rfl]
    exact simulates_ret hR

/-- **`kfree`** of a payload in use. -/
theorem kfree {pre post : List Seg} {x : Seg} (h : SameHeap p₀ frames s P)
    (ht : Tiled s (pre ++ x :: post))
    (hx : x.free = false) : Simulates (heapAct kernelBacking) ramAct (SameHeap p₀ frames)
      (kfree (heapStart + Seg.span headerSize pre + headerSize)) s P := by
  obtain ⟨m, t, hrun, -⟩ := runs_kfree (B := kernelBacking) ht hx
  exact simulates_same h ht.brk_lt.le (only_kfree _) hrun

/-- An owner's write. -/
theorem write {live : Set (ℕ × ℕ)} {l : List Seg} {a : ℕ} (h : SameHeap p₀ frames s P)
    (hinv : HeapInv ⟨s, live⟩ l) (ha : InOwnPayload live a) (v : UInt8) :
    SameHeap p₀ frames (s.setMem (s.mem.write8 a v)) (P.storeByte a v) := by
  obtain ⟨b, hb, h1, h2⟩ := ha
  obtain ⟨hlo, hhi⟩ := hinv.block_below hb
  exact h.storeByte hinv.tiled.brk_lt.le v ⟨hlo.trans h1, h2.trans_le hhi⟩

/-! ### Commands on the page tables -/

/-- The page tables change, but not at the heap's pages. -/
theorem onConsole {r Q : List Output × Paging} {K : Set ℕ} (h : SameHeap p₀ frames s P)
    (hQ : Q = (r.1, r.2.patched K P.env.ram)) {tabs pages : ℕ → Option ℕ} {lost : Set ℕ}
    (hs : Shared p₀ frames s.brk s.brk s.mem r.2 tabs pages lost
      (Mem.overlay K P.env.ram r.2.ram)) :
    SameHeap p₀ frames (s.onConsole r) (P.onConsole Q) := by
  subst hQ
  refine ⟨h.head, h.brk, h.ready, ?_, h.noFault, rfl, tabs, pages, lost, hs⟩
  show P.out ++ r.1 = s.out ++ r.1
  rw [h.out]

/-- **`cmd_alloc`** prints on the machine what it prints in the model. -/
theorem cmdAlloc (h : SameHeap p₀ frames s P) : ∃ frames', SameHeap p₀ frames'
    (s.onConsole (s.env.pmm.cmdAlloc.2.1, { s.env with pmm := s.env.pmm.cmdAlloc.2.2 }))
    (P.onConsole (P.env.pmm.cmdAlloc.2.1, { P.env with pmm := P.env.pmm.cmdAlloc.2.2 })) := by
  obtain ⟨tabs, pages, lost, hs⟩ := h.shared
  have hpmm : P.env.pmm = s.env.pmm := by rw [h.env]
  rw [hpmm, Pmm.cmdAlloc_pmm]
  exact ⟨_, h.head, h.brk, h.ready, congrArg (· ++ _) h.out, h.noFault,
    congrArg (fun e : Paging => { e with pmm := s.env.pmm.pmmAllocFrame.2 }) h.env, tabs,
    pages, lost, hs.ledger.alloc, hs.mapped, hs.bytes, hs.rest⟩

/-- **`cmd_map`** prints on the machine what it prints in the model. -/
theorem cmdMap (h : SameHeap p₀ frames s P) {addr : ℕ} (ha : addr < 2 ^ 32) :
    SameHeap p₀ frames (s.onConsole (s.env.cmdMap addr)) (P.onConsole (P.env.cmdMap addr)) := by
  obtain ⟨tabs, pages, lost, hs⟩ := h.shared
  obtain ⟨tabs', pages', hnext, hkeep⟩ := hs.ledger.cmdMap_keeps ha
  refine h.onConsole (K := heapBytes pages s.brk) ?_ (hs.command hnext fun page h1 h2 => ?_)
  · conv_lhs => rw [h.env, hs.env_eq]
    exact hs.ledger.map.cmdMap_patched (Shared.foreign hs.ledger s.brk) ha
  · obtain ⟨a, ha⟩ := Option.isSome_iff_exists.1 (hs.mapped page h1 h2)
    rw [hkeep page a ha, ha]

/-- **`cmd_unmap`** of a page outside the heap. -/
theorem cmdUnmap (h : SameHeap p₀ frames s P) (hpage : pageSize ∣ s.brk) {addr : ℕ}
    (ha : addr < 2 ^ 32)
    (hout : addr < heapStart ∨ s.brk ≤ addr) :
    SameHeap p₀ frames (s.onConsole (s.env.cmdUnmap addr)) (P.onConsole (P.env.cmdUnmap addr)) := by
  obtain ⟨tabs, pages, lost, hs⟩ := h.shared
  obtain ⟨pages', hnext, hkeep⟩ := hs.ledger.cmdUnmap ha
  refine h.onConsole (K := heapBytes pages s.brk) ?_ (hs.command hnext fun page h1 h2 => ?_)
  · conv_lhs => rw [h.env, hs.env_eq]
    exact hs.ledger.map.cmdUnmap_patched (Shared.foreign hs.ledger s.brk) ha
  · refine hkeep page ?_
    rintro rfl
    obtain ⟨k, hk⟩ := hpage
    simp only [heapStart, pageSize] at *
    omega

end InRam

/-! ## `heap_init` -/

/-- What `heap_init` does once the first pages are mapped. -/
def firstBlock : HeapM Unit := do
  let _ ← perform (setHead heapStart)
  let head ← perform getHead
  let _ ← setMagic head blockMagic
  let brk ← perform getBrk
  let _ ← setSize head (sub32 (sub32 brk heapStart) headerSize)
  let _ ← setNext head 0
  let _ ← setFree head 1
  let _ ← perform (setReady 1)

theorem heapInit_eq : heapInit = perform (setBrk heapStart) >>= fun _ =>
    growMapping heapInitial >>= fun grown =>
      if grown = 0 then perform (print "FATAL: could not map the kernel heap.\n") >>=
        fun _ => ret ()
      else firstBlock := rfl

theorem only_firstBlock : Only Local firstBlock := by
  simp [firstBlock, setMagic, setSize, setNext, setFree, Local]

theorem runs_firstBlock {s : HeapState Paging} (h1 : heapStart + headerSize ≤ s.brk)
    (h2 : s.brk < 2 ^ 32) :
    ∃ m, Runs (heapAct kernelBacking) (InWindow heapStart s.brk) firstBlock s ()
      { s with mem := m, head := heapStart, ready := 1 } := by
  have hroom : Room heapStart s.brk heapStart := ⟨le_rfl, h1, h2⟩
  refine ⟨IsHeader.put s.mem heapStart ⟨sub32 (sub32 s.brk heapStart) headerSize, true⟩ 0, ?_⟩
  rw [firstBlock, runs_setHead, runs_getHead, runs_setMagic hroom, runs_getBrk, runs_setSize hroom,
    runs_setNext hroom, runs_setFree hroom, runs_setReady]
  exact runs_ret

theorem confined_true (o : HeapOp) (r : ℕ) : Confined (fun _ => True) (fun _ => True) o r := by
  cases o with
  | pagingMap => exact fun _ => trivial
  | _ => trivial

/-- **`heap_init`** does on the machine what it does in the model. -/
theorem InRam.heapInit {p₀ : Pmm} {frames : List ℕ} {e : Paging} {tabs pages : ℕ → Option ℕ}
    {lost : Set ℕ}
    (h : Ledger p₀ e tabs pages frames lost) (m : Mem) :
    Simulates (heapAct kernelBacking) ramAct (SameHeap p₀ frames) heapInit (.zeroed m e)
      (.zeroed e) := by
  have hpages : roundPages heapInitial = initialPages * pageSize := by decide
  have hstart : SameHeap p₀ frames (heapEmpty m e) { RamHeap.zeroed e with brk := heapStart } := by
    refine ⟨rfl, rfl, rfl, rfl, rfl, rfl, tabs, pages, lost, h,
      fun page h1 h2 => ?_, fun v a h1 h2 => ?_, fun _ _ => rfl⟩
    · have h2 : page * pageSize < heapStart := h2
      simp only [heapStart, pageSize] at h1 h2
      omega
    · exact absurd h2 (not_lt.2 h1)
  have hdvd : pageSize ∣ heapStart := by decide
  have hlt : heapStart + initialPages * pageSize < 2 ^ 32 := by decide
  have hstart32 : heapStart < 2 ^ 32 := by decide
  rw [heapInit_eq]
  refine simulates_act rfl ?_
  refine (hstart.growMapping hpages le_rfl hdvd hlt).bind fun r g Q hrun hQ => ?_
  have hruns : Runs (heapAct kernelBacking) (Confined (fun _ => True) fun _ => True)
      (JarvisOS.growMapping heapInitial) (heapEmpty m e) r g := ⟨hrun, fun o _ => confined_true _ _⟩
  rw [runs_growMapping hpages hstart32] at hruns
  by_cases hr : r = 0
  · rw [if_pos hr]
    refine simulates_act rfl (simulates_ret ?_)
    exact { hQ with
      out := congrArg (· ++ [Output.str "FATAL: could not map the kernel heap.\n"]) hQ.out }
  · rw [if_neg hr]
    have hbrk : g.brk = heapStart + initialPages * pageSize := by
      split_ifs at hruns with hceil hall
      · exact absurd hruns.1 hr
      · exact (congrArg HeapState.brk hruns.2.2).trans (u32_of_lt hlt)
      · exact absurd hruns.2.1 hr
    have hroom : heapStart + headerSize ≤ g.brk := by rw [hbrk]; decide
    have hglt : g.brk < 2 ^ 32 := by rw [hbrk]; decide
    obtain ⟨m', hblock⟩ := runs_firstBlock hroom hglt
    exact InRam.simulates_same hQ hglt.le only_firstBlock hblock

/-! ## Runs of the machine -/

/-- Paging is enabled only if some frame was free. -/
theorem exists_free_of_enabled {img : KernelImage} {mm : MemMap} {ram : Bitmap} {m : Mem}
    (hen : (bootPaging mm ⟨Pmm.pmmInit img mm ram, []⟩ m).enabled ≠ 0) :
    ∃ f < (Pmm.pmmInit img mm ram).totalFrames, (Pmm.pmmInit img mm ram).frameTest f = false := by
  rcases (FrameReach.init img mm ram).sound.pmmAllocFrame_spec with ⟨e, -⟩ | ⟨f, -, hf, -⟩
  · refine absurd ?_ hen
    simp only [bootPaging, Paging.pagingInit, Paging.zeroed, e]
    rfl
  · exact ⟨f, hf.1.1, hf.1.2⟩

/-- The machine and the live allocations. -/
structure RamSystem where
  ram : RamHeap
  live : Set (ℕ × ℕ)

/-- `heap_init` has run on the machine, successfully, after `paging_init`. -/
def RamStarted (boot : Paging) (p : RamSystem) : Prop :=
  run ramAct heapInit (.zeroed boot) = some ((), p.ram) ∧ p.ram.ready = 1 ∧ p.live = ∅

/-- One step of the machine: a call of the heap, a byte that an owner stores in its own payload, or
a command that takes a frame or changes the page tables. -/
inductive RamStep : RamSystem → RamSystem → Prop
  | kmalloc {P Q : RamHeap} {live : Set (ℕ × ℕ)} {n ptr : ℕ} (h1 : 1 ≤ n) (h2 : n ≤ heapMax)
      (h : run ramAct (kmalloc n) P = some (ptr, Q)) :
      RamStep ⟨P, live⟩ ⟨Q, if ptr = 0 then live else insert (ptr, n) live⟩
  | kfree {P Q : RamHeap} {live : Set (ℕ × ℕ)} {b : ℕ × ℕ} {r : ℕ} (hb : b ∈ live)
      (h : run ramAct (kfree b.1) P = some (r, Q)) : RamStep ⟨P, live⟩ ⟨Q, {c ∈ live | c.1 ≠ b.1}⟩
  | write (P : RamHeap) {live : Set (ℕ × ℕ)} {a : ℕ} (ha : InOwnPayload live a) (v : UInt8) :
      RamStep ⟨P, live⟩ ⟨P.storeByte a v, live⟩
  | alloc (P : RamHeap) (live : Set (ℕ × ℕ)) :
      RamStep ⟨P, live⟩ ⟨P.onConsole (P.env.pmm.cmdAlloc.2.1,
        { P.env with pmm := P.env.pmm.cmdAlloc.2.2 }), live⟩
  | map (P : RamHeap) (live : Set (ℕ × ℕ)) {addr : ℕ} (ha : addr < 2 ^ 32) :
      RamStep ⟨P, live⟩ ⟨P.onConsole (P.env.cmdMap addr), live⟩
  | unmap (P : RamHeap) (live : Set (ℕ × ℕ)) {addr : ℕ} (ha : addr < 2 ^ 32)
      (hout : addr < heapStart ∨ P.brk ≤ addr) :
      RamStep ⟨P, live⟩ ⟨P.onConsole (P.env.cmdUnmap addr), live⟩

/-- The states of the machine reached after `paging_init` has left the page tables in state
`boot`. -/
def RamReach (boot : Paging) : RamSystem → Prop := Reach (RamStarted boot) RamStep

/-- The machine beside the model. -/
structure RamInv (boot : Paging) (p₀ : Pmm) (q : KernelSystem) (p : RamSystem) : Prop where
  reach : KernelReach boot q
  heap : ∃ l, HeapInv q l
  live : p.live = q.live
  same : ∃ frames, SameHeap p₀ frames q.heap p.ram

namespace RamInv

variable {boot : Paging} {p₀ : Pmm} {q : KernelSystem} {p p' : RamSystem}

/-- After `heap_init`. -/
theorem started {tabs pages : ℕ → Option ℕ} (hboot : Ledger p₀ boot tabs pages [] ∅)
    (h : RamStarted boot p) : ∃ q, RamInv boot p₀ q p := by
  obtain ⟨hrun, hready, hlive⟩ := h
  obtain ⟨t, ht, -⟩ := run_heapInit kernelBacking (fun _ => 0) boot
  obtain ⟨P, hP, hsame⟩ := InRam.heapInit hboot (fun _ => 0) () t ht
  obtain rfl : P = p.ram := (Prod.mk.inj (Option.some.inj (hP.symm.trans hrun))).2
  exact ⟨⟨t, ∅⟩, .start ⟨⟨_, ht⟩, rfl⟩, ⟨_, HeapInv.started (B := kernelBacking)
    ⟨⟨_, _, ht⟩, hsame.ready ▸ hready, rfl⟩⟩, hlive, _, hsame⟩

/-- A step of the model that the machine has taken too. -/
theorem next {c : HeapEvent Paging} {s t : HeapState Paging} {live live' : Set (ℕ × ℕ)}
    {Q : RamHeap}
    (hq : KernelReach boot ⟨s, live⟩) (hheap : ∃ l, HeapInv ⟨s, live⟩ l)
      (hc : Requested ⟨s, live⟩ c)
    (hb : ∀ e, c ≠ .backing e) (hs : HeapStep kernelBacking c ⟨s, live⟩ ⟨t, live'⟩)
      {frames : List ℕ}
    (hsame : SameHeap p₀ frames t Q) : ∃ r, RamInv boot p₀ r ⟨Q, live'⟩ := by
  obtain ⟨l, hl⟩ := hheap
  exact ⟨⟨t, live'⟩, .next hq (.heap hc hb hs), hs.inv hl (hc.windowed hl), rfl, _, hsame⟩

/-- **Every step of the machine is a step of the model.** -/
theorem step (h : RamInv boot p₀ q p) (hs : RamStep p p') : ∃ r, RamInv boot p₀ r p' := by
  obtain ⟨s, live⟩ := q
  obtain ⟨hreach, ⟨l, hl⟩, hlive, frames, hsame⟩ := h
  have hl' : HeapInv ⟨s, live⟩ l := hl
  cases hs with
  | @kmalloc P Q _ n ptr h1 h2 hrun =>
    subst hlive
    obtain ⟨ptr', t, -, habs, -⟩ := runs_kmalloc (B := kernelBacking) hl'.tiled h1
      (h2.trans_lt (by decide)) (growthInWindow_of_le hl'.tiled h2)
    obtain ⟨Q', hQ', hnext⟩ := InRam.kmalloc hsame hl'.tiled h1 h2 ptr' t habs.1
    obtain ⟨rfl, rfl⟩ := Prod.mk.inj (Option.some.inj (hQ'.symm.trans hrun))
    exact next (c := .kmalloc n) hreach ⟨l, hl⟩ ⟨h1, h2⟩ (fun _ => nofun) (.kmalloc habs.1) hnext
  | @kfree P Q _ b r hb hrun =>
    subst hlive
    obtain ⟨pre, x, post, rfl, hx, -, hp⟩ := hl'.exists_block hb
    obtain ⟨m, t, habs, -⟩ := runs_kfree (B := kernelBacking) hl'.tiled hx
    obtain ⟨Q', hQ', hnext⟩ := InRam.kfree hsame hl'.tiled hx 1 t habs.1
    rw [← hp] at habs hQ'
    obtain ⟨rfl, rfl⟩ := Prod.mk.inj (Option.some.inj (hQ'.symm.trans hrun))
    exact next (c := .kfree b.1) hreach ⟨_, hl⟩ ⟨b, hb, rfl⟩ (fun _ => nofun) (.kfree habs.1) hnext
  | @write P _ a ha v =>
    subst hlive
    refine next (c := .write (s.mem.write8 a v)) hreach ⟨l, hl⟩ trivial (fun _ => nofun)
      (.write fun y hy => ?_)
      (InRam.write hsame hl' ha v)
    exact if_neg fun (e : y = a) => hy (e ▸ ha)
  | alloc P _ =>
    obtain ⟨frames', hnext⟩ := InRam.cmdAlloc hsame
    exact ⟨_, .next hreach (.alloc _), ⟨l, hl'.onConsole _ _⟩, hlive, frames', hnext⟩
  | map P _ ha =>
    exact ⟨_, .next hreach (.map _ ha), ⟨l, hl'.onConsole _ _⟩, hlive, _, InRam.cmdMap hsame ha⟩
  | unmap P _ ha hout =>
    have hout : _ ∨ s.brk ≤ _ := hsame.brk ▸ hout
    exact ⟨_, .next hreach (.unmap _ ha hout), ⟨l, hl'.onConsole _ _⟩, hlive, _,
      InRam.cmdUnmap hsame hl'.tiled.page ha hout⟩

end RamInv

/-- **The heap runs in physical memory.** In every state that the machine reaches from a successful
`heap_init`, by `kmalloc` of up to `HEAP_MAX` bytes, `kfree` of live pointers, stores of owners into
their own payloads, `alloc`, `map` and `unmap` outside the heap, no access of the heap code has
faulted, and the machine is in a state of the model: the heap's variables, the page tables and what
has been printed are those of the model, and the bytes that the processor sees in the heap are the
bytes of the model's window. From there `kmalloc` and `kfree` return on the machine what they return
in the model. -/
theorem heap_runs_in_ram {img : KernelImage} {mm : MemMap} {ram : Bitmap} {m : Mem}
    (hen : (bootPaging mm ⟨Pmm.pmmInit img mm ram, []⟩ m).enabled ≠ 0) {p : RamSystem}
    (h : RamReach (bootPaging mm ⟨Pmm.pmmInit img mm ram, []⟩ m) p) :
    p.ram.fault = false ∧
    ∃ q, KernelReach (bootPaging mm ⟨Pmm.pmmInit img mm ram, []⟩ m) q ∧ q.live = p.live ∧
      q.heap.head = p.ram.head ∧ q.heap.brk = p.ram.brk ∧ q.heap.ready = p.ram.ready ∧
      q.heap.out = p.ram.out ∧ { q.heap.env with ram := p.ram.env.ram } = p.ram.env ∧
      (∀ v < 2 ^ 32, q.heap.env.pagingTranslate v = p.ram.env.pagingTranslate v) ∧
      (∀ v, heapStart ≤ v → v < p.ram.brk → p.ram.mem v = q.heap.mem v) ∧
      (∀ n, 1 ≤ n → n ≤ heapMax → ∃ ptr t Q, run (heapAct kernelBacking) (kmalloc n) q.heap = some
        (ptr, t) ∧
        run ramAct (kmalloc n) p.ram = some (ptr, Q) ∧ Q.fault = false) ∧
      ∀ b ∈ p.live, ∃ t Q, run (heapAct kernelBacking) (kfree b.1) q.heap = some (1, t) ∧
        run ramAct (kfree b.1) p.ram = some (1, Q) ∧ Q.fault = false := by
  obtain ⟨tabs, pages, hboot, -⟩ := Ledger.boot img mm ram m (exists_free_of_enabled hen)
  obtain ⟨q, hreach, ⟨l, hl⟩, hlive, frames, hsame⟩ := h.invariant
    (I := fun p => ∃ q, RamInv (bootPaging mm ⟨Pmm.pmmInit img mm ram, []⟩ m)
      (Pmm.pmmInit img mm ram) q p)
    (fun _ h0 => RamInv.started hboot h0) fun _ _ _ ⟨_, hq⟩ hs => hq.step hs
  obtain ⟨s, live⟩ := q
  have hl' : HeapInv ⟨s, live⟩ l := hl
  have hsame : SameHeap (Pmm.pmmInit img mm ram) frames s p.ram := hsame
  refine ⟨hsame.noFault, ⟨s, live⟩, hreach, hlive.symm, hsame.head.symm, hsame.brk.symm,
    hsame.ready.symm, hsame.out.symm, hsame.env.symm, fun v hv => (hsame.translate hv).symm,
    fun v h1 h2 => ?_, fun n h1 h2 => ?_, fun b hb => ?_⟩
  · exact hsame.mem_eq hl'.tiled.brk_lt.le ⟨h1, hsame.brk ▸ h2⟩
  · obtain ⟨ptr, t, -, hrun, -⟩ := runs_kmalloc (B := kernelBacking) hl'.tiled h1
      (h2.trans_lt (by decide)) (growthInWindow_of_le hl'.tiled h2)
    obtain ⟨Q, hQ, hnext⟩ := InRam.kmalloc hsame hl'.tiled h1 h2 ptr t hrun.1
    exact ⟨ptr, t, Q, hrun.1, hQ, hnext.noFault⟩
  · have hb : b ∈ live := by rwa [hlive] at hb
    obtain ⟨pre, x, post, rfl, hx, -, hp⟩ := hl'.exists_block hb
    obtain ⟨m, t, hrun, -⟩ := runs_kfree (B := kernelBacking) hl'.tiled hx
    obtain ⟨Q, hQ, hnext⟩ := InRam.kfree hsame hl'.tiled hx 1 t hrun.1
    exact ⟨t, Q, hp ▸ hrun.1, hp ▸ hQ, hnext.noFault⟩

/-- The small machine right after `heap_init`. -/
theorem heap_runs_in_ram_small : ∃ P : RamHeap, RamReach smallPaging ⟨P, ∅⟩ ∧
    ∃ ptr Q, run ramAct (kmalloc 64) P = some (ptr, Q) ∧ Q.fault = false := by
  obtain ⟨tabs, pages, hboot, -⟩ := Ledger.boot smallImage smallMap (fun _ => 0#32) (fun _ => 0)
    (exists_free_of_enabled smallPaging_enabled)
  obtain ⟨P, hrun, hsame⟩ := InRam.heapInit hboot (fun _ => 0) () smallHeap run_smallHeap
  have hreach : RamReach smallPaging ⟨P, ∅⟩ := .start ⟨hrun, hsame.ready.trans smallHeap_ready, rfl⟩
  obtain ⟨-, q, -, -, -, -, -, -, -, -, -, hkmalloc, -⟩ :=
    heap_runs_in_ram smallPaging_enabled hreach
  obtain ⟨ptr, -, Q, -, hQ, hfault⟩ := hkmalloc 64 (by decide) (by decide)
  exact ⟨P, hreach, ptr, Q, hQ, hfault⟩

end JarvisOS
