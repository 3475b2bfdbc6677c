import JarvisOS.Heap.Magic
import JarvisOS.Kernel.FailedGrowth
import JarvisOS.Physical.Reserved
import JarvisOS.Tasks.Stacks

/-!
# The kernel with its shell

The scheduler, the heap, the page tables and the frame allocator under the commands of the shell.
`ShellStep` is one command, one operation of the scheduler, or a write of owners inside their own
payloads; each is one atomic step. `ShellInv` says that the heap and the scheduler are sound and
that the scheduler's stacks are live blocks of the heap. It is kept as long as the shell gives no
stack of a task to `kfree`, and no pointer that `kfree` takes for a block although it is none
(`ShellStep.inv`).
-/

namespace JarvisOS

open Foundations Prog Sched

/-! ## The commands on the heap -/

namespace HeapState

variable {σ : Type}

/-- The state after something has been printed. -/
def printed (s : HeapState σ) (out : List Output) : HeapState σ := { s with out := s.out ++ out }

/-- `cmd_kmalloc`, for the number given as its argument: the pointer, or `0`. -/
def cmdKmalloc (size : ℤ) (s : HeapState Paging) : Option (ℕ × HeapState Paging) :=
  if size ≤ 0 then some (0, s.printed [.str "usage: kmalloc 128\n"])
  else
    (run (heapAct kernelBacking) (kmalloc size.toNat) s).map fun r =>
      if r.1 = 0 then (0, r.2.printed [.str "kmalloc failed: heap exhausted\n"])
      else
        -- scribble on it so a broken mapping would show up immediately
        let s := r.2.setMem (r.2.mem.memset r.1 0xAB size.toNat)
        (r.1, s.printed [.str "kmalloc(", .int size.toNat, .str ") = ", .hex r.1,
          .str "   (physical ", .hex (s.env.pagingTranslate r.1), .str ")\n"])

/-- `cmd_kfree`, for the address given as its argument: `1` if the block was freed. -/
def cmdKfree (addr : ℕ) (s : HeapState Paging) : Option (ℕ × HeapState Paging) :=
  if addr = 0 then some (0, s.printed [.str "usage: kfree 0xC000000C\n"])
  else
    (run (heapAct kernelBacking) (kfree addr) s).bind fun r =>
      if r.1 = 0 then some (0, r.2)
      else
        (run (heapAct kernelBacking) heapFree r.2).map fun u =>
          (1, u.2.printed [.str "freed ", .hex addr, .str "   (heap free now: ", .int u.1,
            .str " bytes)\n"])

end HeapState

/-! ## The system -/

/-- The scheduler, the heap over the page tables with its live allocations, and the frames that
`alloc` has handed out. -/
structure ShellState where
  sched : Sched
  kernel : KernelSystem
  frames : List ℕ

/-- The state of the heap. -/
abbrev ShellState.heap (p : ShellState) : HeapState Paging := p.kernel.heap

/-- The page tables and the frame allocator. -/
abbrev ShellState.env (p : ShellState) : Paging := p.kernel.heap.env

/-- What happens to the system. -/
inductive ShellCommand
  | alloc
  | map (addr : ℕ)
  | unmap (addr : ℕ)
  | kmalloc (size : ℤ)
  | kfree (addr : ℕ)
  /-- An operation of the scheduler: `spawn` creates a task, `kill` kills one, a timer interrupt
  ticks. -/
  | task (op : SchedOp)
  /-- Owners write bytes of their own payloads; `m` is the heap's memory afterwards. -/
  | write (m : Mem)

/-- One step of the system; `taskExitAddr` is the address of `task_exit`. -/
inductive ShellStep (taskExitAddr : ℕ) : ShellCommand → ShellState → ShellState → Prop
  | alloc (p : ShellState) :
      ShellStep taskExitAddr .alloc p ⟨p.sched,
        ⟨p.heap.onConsole (p.env.pmm.cmdAlloc.2.1, { p.env with pmm := p.env.pmm.cmdAlloc.2.2 }),
          p.kernel.live⟩,
        if p.env.pmm.cmdAlloc.1 = 0 then p.frames else p.frames ++ [p.env.pmm.cmdAlloc.1]⟩
  | map (p : ShellState) {addr : ℕ} (ha : addr < 2 ^ 32) :
      ShellStep taskExitAddr (.map addr) p
        ⟨p.sched, ⟨p.heap.onConsole (p.env.cmdMap addr), p.kernel.live⟩, p.frames⟩
  | unmap (p : ShellState) {addr : ℕ} (ha : addr < 2 ^ 32) :
      ShellStep taskExitAddr (.unmap addr) p
        ⟨p.sched, ⟨p.heap.onConsole (p.env.cmdUnmap addr), p.kernel.live⟩, p.frames⟩
  | kmalloc (p : ShellState) {size : ℤ} (hn : size < 2 ^ 31) {ptr : ℕ} {t : HeapState Paging}
      (h : p.heap.cmdKmalloc size = some (ptr, t)) :
      ShellStep taskExitAddr (.kmalloc size) p
        ⟨p.sched, HeapSystem.allocated p.kernel.live size.toNat (ptr, t), p.frames⟩
  | kfree (p : ShellState) {addr : ℕ} (ha : addr < 2 ^ 32) {r : ℕ} {t : HeapState Paging}
      (h : p.heap.cmdKfree addr = some (r, t)) :
      ShellStep taskExitAddr (.kfree addr) p
        ⟨p.sched, ⟨t, if r = 0 then p.kernel.live else {b ∈ p.kernel.live | b.1 ≠ addr}⟩, p.frames⟩
  | task (p : ShellState) {op : SchedOp} {s : Sched} {q : KernelSystem}
      (h : SchedStep (heapApi kernelBacking) taskExitAddr op (p.sched, some p.kernel) (s, some q)) :
      ShellStep taskExitAddr (.task op) p ⟨s, q, p.frames⟩
  | write (p : ShellState) {m : Mem}
      (hm : ∀ a, ¬ InOwnPayload p.kernel.live a → m a = p.heap.mem a) :
      ShellStep taskExitAddr (.write m) p ⟨p.sched, ⟨p.heap.setMem m, p.kernel.live⟩, p.frames⟩

/-- The system when `kernel_main` has initialised it and `paging_init` has left the page tables in
state `boot`. -/
structure ShellStarted (boot : Paging) (p : ShellState) : Prop where
  sched : p.sched = schedulerInit zeroed
  kernel : KernelStarted boot p.kernel
  frames : p.frames = []

/-- The states reached from those of `Init` by steps that `Allowed` admits. -/
def ShellReach (taskExitAddr : ℕ) (Init : ShellState → Prop)
    (Allowed : ShellState → ShellCommand → Prop) : ShellState → Prop :=
  Reach Init fun p q => ∃ c, Allowed p c ∧ ShellStep taskExitAddr c p q

/-! ## The heap under the scheduler -/

section Booted

variable {σ : Type} {B : Backing σ}

/-- The heap is not ready and empty, or satisfies its invariant. -/
def BootedHeap (h : Option (HeapSystem σ)) : Prop :=
  ∃ q, h = some q ∧ (q.heap.ready = 0 ∧ q.heap.brk = heapStart ∧ q.live = ∅ ∨ ∃ l, HeapInv q l)

/-- A booted heap with a live block satisfies its invariant. -/
theorem BootedHeap.ok {h : Option (HeapSystem σ)} (hb : BootedHeap h) {b : ℕ × ℕ}
    (hlive : b ∈ liveOf h) : HeapOk h := by
  obtain ⟨q, rfl, ⟨-, -, hnone⟩ | ⟨l, hinv⟩⟩ := hb
  · have hlive : b ∈ q.live := hlive
    rw [hnone] at hlive
    exact absurd hlive (Set.notMem_empty b)
  · exact ⟨q, l, rfl, hinv⟩

theorem HeapOk.booted {h : Option (HeapSystem σ)} (hok : HeapOk h) : BootedHeap h := by
  obtain ⟨q, l, rfl, hinv⟩ := hok
  exact ⟨q, rfl, Or.inr ⟨l, hinv⟩⟩

/-- A heap that may not be ready is what the scheduler relies on as well. -/
theorem heapApi_spec_booted : HeapSpec (heapApi B) BootedHeap liveOf := by
  have hspec := heapApi_spec (B := B)
  have hcall : ∀ {h : Option (HeapSystem σ)}, BootedHeap h → HeapOk h ∨
      (BootedHeap ((heapApi B).kmalloc taskStackSize h).2 ∧
        ((heapApi B).kmalloc taskStackSize h).1 = 0 ∧
        liveOf ((heapApi B).kmalloc taskStackSize h).2 = liveOf h) := by
    rintro h ⟨q, rfl, ⟨hready, hbrk, hlive⟩ | ⟨l, hinv⟩⟩
    · rw [heapApi_kmalloc (run_kmalloc_of_not_ready B hready taskStackSize)]
      exact Or.inr ⟨⟨_, rfl, Or.inl ⟨hready, hbrk, hlive⟩⟩, rfl, rfl⟩
    · exact Or.inl ⟨q, l, rfl, hinv⟩
  refine ⟨fun h hI => ?_, fun h hI => ?_, fun h hI b hb => hspec.bounded h (hI.ok hb) b hb,
    fun h hI b hb => ?_, fun h hI b hb a v h1 h2 => ?_⟩
  · rcases hcall hI with hok | ⟨hbooted, -, -⟩
    · exact (hspec.kmalloc_inv h hok).booted
    · exact hbooted
  · rcases hcall hI with hok | ⟨-, hzero, hlive⟩
    · exact hspec.kmalloc h hok
    · exact Or.inl ⟨hzero, hlive⟩
  · obtain ⟨hret, hok, hlive⟩ := hspec.kfree h (hI.ok hb) b hb
    exact ⟨hret, hok.booted, hlive⟩
  · obtain ⟨hok, hlive⟩ := hspec.store h (hI.ok hb) b hb a v h1 h2
    exact ⟨hok.booted, hlive⟩

/-- The page tables and the break are `e` and `brk`. -/
def HeapKept (e : σ) (brk : ℕ) (h : Option (HeapSystem σ)) : Prop :=
  ∀ q, h = some q → q.heap.env = e ∧ q.heap.brk = brk

/-- Freeing a live block and writing inside one change neither the page tables nor the break. -/
theorem heapApi_spec_kept (e : σ) (brk : ℕ) :
    HeapSpec (quiet (heapApi B)) (fun h => BootedHeap h ∧ HeapKept e brk h) liveOf := by
  have hspec := heapApi_spec_booted (B := B)
  refine ⟨fun h hI => hI, fun h _ => Or.inl ⟨rfl, rfl⟩, fun h hI => hspec.bounded h hI.1,
    fun h hI b hb => ?_, fun h hI b hb a v h1 h2 => ?_⟩
  · obtain ⟨hret, hbooted, hlive⟩ := hspec.kfree h hI.1 b hb
    refine ⟨hret, ⟨hbooted, ?_⟩, hlive⟩
    obtain ⟨q, l, rfl, hinv⟩ := hI.1.ok hb
    obtain ⟨pre, x, post, rfl, hx, -, hp⟩ := hinv.exists_block hb
    obtain ⟨m, t, hrun, hr⟩ := runs_kfree (B := B) hinv.tiled hx
    rw [← hp] at hrun
    show HeapKept e brk ((heapApi B).kfree b.1 (some q)).2
    rw [heapApi_kfree hrun.1]
    rintro q' hq'
    obtain rfl := Option.some.inj hq'
    show t.env = e ∧ t.brk = brk
    rw [hr.state]
    exact hI.2 q rfl
  · obtain ⟨hbooted, hlive⟩ := hspec.store h hI.1 b hb a v h1 h2
    refine ⟨⟨hbooted, ?_⟩, hlive⟩
    obtain ⟨q, l, rfl, -⟩ := hI.1.ok hb
    rintro q' hq'
    obtain rfl := Option.some.inj hq'
    exact hI.2 q rfl

end Booted

/-! ## Growing -/

/-- The heap has grown for a payload of `size` bytes, by all the pages asked for or by the first
few. -/
structure Grown (size : ℕ) (s t : HeapState Paging) : Prop where
  ready : s.ready ≠ 0
  noFit : NoFit size s
  pass : u32 (s.brk + growthPages size * pageSize) ≤ heapStart + heapMax
  window : s.brk + (mapPages kernelBacking (growthPages size) s.brk s).1 * pageSize ≤
    heapStart + heapMax
  env : t.env = (mapPages kernelBacking (growthPages size) s.brk s).2.env
  brk : t.brk = s.brk ∨
    t.brk = s.brk + (mapPages kernelBacking (growthPages size) s.brk s).1 * pageSize

/-- Growing is about the page tables and the break. -/
theorem Grown.congr {size : ℕ} {s t u : HeapState Paging} (h : Grown size s t) (he : u.env = t.env)
    (hb : u.brk = t.brk) : Grown size s u :=
  ⟨h.ready, h.noFit, h.pass, h.window, he.trans h.env, by rw [hb]; exact h.brk⟩

/-- **An allocation grows the heap, or leaves the page tables and the break alone.** -/
theorem Allocated.kept_or_grown {size p : ℕ} {s t : HeapState Paging} {l l' : List Seg}
    (h : Tiled s l)
    (ha : Allocated kernelBacking size s l p t l') :
    t.env = s.env ∧ t.brk = s.brk ∨ Grown size s t := by
  have hready : s.ready ≠ 0 := h.ready ▸ Nat.one_ne_zero
  cases ha with
  | found ht =>
    rw [ht.state]
    exact Or.inl ⟨rfl, rfl⟩
  | grown hno hu _ ht =>
    have hend := hu.ceiling
    refine Or.inr ⟨hready, h.noFit_iff.2 hno, ?_, hu.granted.symm ▸ hend, ?_, Or.inr ?_⟩
    · rwa [u32_of_lt (hend.trans_lt window_lt)]
    · rw [ht.state, HeapState.setMem_env, hu.state]
    · rw [ht.state, HeapState.setMem_brk, hu.state, hu.granted]
  | ceiling => exact Or.inl ⟨rfl, rfl⟩
  | refused hno hpass hg hw =>
    have hbrk := (mapPages_spec (B := kernelBacking) (growthPages size) s.brk s).1.2.1
    exact Or.inr ⟨hready, h.noFit_iff.2 hno, hpass, hw, rfl, Or.inl hbrk⟩

/-- The payload for which a command may ask the heap. -/
def ShellCommand.asks (s : Sched) : ShellCommand → Option ℕ
  | .kmalloc size => if 0 < size then some (align8 size.toNat) else none
  | .task (.create _ _) => s.findSlot.map fun _ => align8 taskStackSize
  | _ => none

/-! ## The invariant -/

/-- `addr` is a live allocation, and not the stack of a task. -/
def OwnBlock (p : ShellState) (addr : ℕ) : Prop :=
  (∃ b ∈ p.kernel.live, b.1 = addr) ∧
    ∀ i, Owns p.sched i → (p.sched.tasks i).stackBase ≠ addr

/-- `addr` lies outside the heap, or the words below it fail the test of `kfree`. -/
def Rejected (s : HeapState Paging) (addr : ℕ) : Prop :=
  heapStart + headerSize ≤ addr → addr < s.brk →
    s.mem.read32 (addr - headerSize) ≠ blockMagic ∨ s.mem.read32 (addr - headerSize + 12) ≠ 0

/-- What keeps the heap sound: a growth stays in the window, and `kfree` is given a block that
belongs to the shell, or rejects its argument. -/
def Sound (p : ShellState) : ShellCommand → Prop
  | .kmalloc size => 0 < size → GrowthInWindow kernelBacking (align8 size.toNat) p.heap
  | .kfree addr => OwnBlock p addr ∨ Rejected p.heap addr
  | _ => True

/-- **The invariant of the kernel with its shell.** -/
structure ShellInv (p : ShellState) : Prop where
  sched : SchedInv p.sched
  owned : ∃ L₀, StackInv BootedHeap liveOf L₀ p.sched (some p.kernel)

/-- The console and the page tables are not the heap's. -/
theorem HeapInv.onConsole {s : HeapState Paging} {live : Set (ℕ × ℕ)} {l : List Seg}
    (h : HeapInv ⟨s, live⟩ l) (env : Paging) (out : List Output) :
    HeapInv ⟨{ s with env := env, out := out }, live⟩ l :=
  ⟨h.tiled.congr rfl rfl rfl fun _ _ _ _ _ => rfl, h.accounts⟩

namespace ShellInv

variable {p q : ShellState}

theorem booted (hp : ShellInv p) : BootedHeap (some p.kernel) := hp.owned.elim fun _ hs => hs.heap

theorem heap_cases (hp : ShellInv p) :
    p.heap.ready = 0 ∧ p.heap.brk = heapStart ∧ p.kernel.live = ∅ ∨ ∃ l, HeapInv p.kernel l := by
  obtain ⟨r, e, h⟩ := hp.booted
  obtain rfl := Option.some.inj e
  exact h

theorem heapStart_le (hp : ShellInv p) : heapStart ≤ p.heap.brk := by
  rcases hp.heap_cases with ⟨-, hbrk, -⟩ | ⟨l, hl⟩
  · exact hbrk.ge
  · exact hl.tiled.tiles ▸ Nat.le_add_right _ _

/-- A heap with the same live blocks. -/
theorem withHeap (hp : ShellInv p) {r : KernelSystem}
    (hr : r.heap.ready = 0 ∧ r.heap.brk = heapStart ∧ r.live = ∅ ∨ ∃ l, HeapInv r l)
    (hl : r.live = p.kernel.live) (frames : List ℕ) : ShellInv ⟨p.sched, r, frames⟩ := by
  obtain ⟨L₀, hs⟩ := hp.owned
  exact ⟨hp.sched, L₀, hs.withHeap ⟨r, rfl, hr⟩ hl⟩

/-- Commands on the page tables leave the heap alone. -/
theorem onConsole (hp : ShellInv p) (out : List Output × Paging) (frames : List ℕ) :
    ShellInv ⟨p.sched, ⟨p.heap.onConsole out, p.kernel.live⟩, frames⟩ := by
  refine hp.withHeap (r := ⟨p.heap.onConsole out, p.kernel.live⟩) (hp.heap_cases.imp id ?_)
    rfl frames
  rintro ⟨l, hl⟩
  exact ⟨l, hl.onConsole _ _⟩

/-- An owner's write. -/
theorem write (hp : ShellInv p) {m : Mem}
    (hm : ∀ a, ¬ InOwnPayload p.kernel.live a → m a = p.heap.mem a) :
    ShellInv ⟨p.sched, ⟨p.heap.setMem m, p.kernel.live⟩, p.frames⟩ := by
  refine hp.withHeap (r := ⟨p.heap.setMem m, p.kernel.live⟩) (hp.heap_cases.imp id ?_) rfl p.frames
  rintro ⟨l, hl⟩
  exact ⟨l, HeapInv.write hl hm⟩

theorem brk_le (hp : ShellInv p) : p.heap.brk ≤ heapStart + heapMax := by
  rcases hp.heap_cases with ⟨-, hbrk, -⟩ | ⟨l, hl⟩
  · exact hbrk.trans_le (Nat.le_add_right _ _)
  · exact hl.tiled.ceiling

/-- Requests up to the size of the window stay in it. -/
theorem growthInWindow (hp : ShellInv p) {n : ℕ} (h2 : n ≤ heapMax) :
    GrowthInWindow kernelBacking (align8 n) p.heap :=
  Or.inl (growth_lt_of_ceiling hp.brk_le h2)

/-- **A call of `kmalloc`** returns. -/
theorem run_kmalloc (hp : ShellInv p) {n : ℕ} (h1 : 1 ≤ n) (h2 : n < 2 ^ 31)
    (hw : GrowthInWindow kernelBacking (align8 n) p.heap) :
    ∃ ptr t, run (heapAct kernelBacking) (JarvisOS.kmalloc n) p.heap = some (ptr, t) ∧
      ShellInv ⟨p.sched, HeapSystem.allocated p.kernel.live n (ptr, t), p.frames⟩ ∧
      (t.env = p.env ∧ t.brk = p.heap.brk ∨ Grown (align8 n) p.heap t) := by
  rcases hp.heap_cases with hidle | ⟨l, hl⟩
  · exact ⟨0, p.heap, run_kmalloc_of_not_ready kernelBacking hidle.1 n,
      hp.withHeap (Or.inl hidle) rfl p.frames, Or.inl ⟨rfl, rfl⟩⟩
  · obtain ⟨ptr, t, l', hrun, ha⟩ := runs_kmalloc (B := kernelBacking) hl.tiled h1 h2 hw
    obtain ⟨hn, hle, -⟩ := payloadSize_align8 h1 h2
    have hnext : HeapInv (HeapSystem.allocated p.kernel.live n (ptr, t)) l' :=
      HeapInv.allocated hl hn hle ha
    refine ⟨ptr, t, hrun.1, ?_, ha.kept_or_grown hl.tiled⟩
    by_cases hptr : ptr = 0
    · exact hp.withHeap (Or.inr ⟨l', hnext⟩) (if_pos hptr) p.frames
    · obtain ⟨L₀, hs⟩ := hp.owned
      exact ⟨hp.sched, _, hs.allocate ⟨_, rfl, Or.inr ⟨l', hnext⟩⟩ (ha.fresh hl hptr n)
        (if_neg hptr)⟩

/-- **`cmd_kmalloc`**. -/
theorem kmalloc (hp : ShellInv p) {size : ℤ} {ptr : ℕ} {t : HeapState Paging} (h2 : size < 2 ^ 31)
    (hw : 0 < size → GrowthInWindow kernelBacking (align8 size.toNat) p.heap)
    (h : p.heap.cmdKmalloc size = some (ptr, t)) :
    ShellInv ⟨p.sched, HeapSystem.allocated p.kernel.live size.toNat (ptr, t), p.frames⟩ ∧
      (t.env = p.env ∧ t.brk = p.heap.brk ∨ 0 < size ∧ Grown (align8 size.toNat) p.heap t) := by
  unfold HeapState.cmdKmalloc at h
  by_cases hpos : size ≤ 0
  · rw [if_pos hpos] at h
    obtain ⟨rfl, rfl⟩ := Prod.mk.inj (Option.some.inj h)
    exact ⟨hp.onConsole (_, p.env) p.frames, Or.inl ⟨rfl, rfl⟩⟩
  have hpos := not_le.1 hpos
  rw [if_neg (not_le.2 hpos)] at h
  obtain ⟨⟨r₀, u₀⟩, hrun₀, e⟩ := Option.map_eq_some_iff.1 h
  obtain ⟨r, u, hrun, hinv, heffect⟩ := hp.run_kmalloc (n := size.toNat) (by omega) (by omega)
    (hw hpos)
  obtain ⟨rfl, rfl⟩ := Prod.mk.inj (Option.some.inj (hrun.symm.trans hrun₀))
  have heffect : ∀ v : HeapState Paging, v.env = u.env → v.brk = u.brk → v.env = p.env ∧
      v.brk = p.heap.brk ∨ 0 < size ∧ Grown (align8 size.toNat) p.heap v := fun v he hb =>
    heffect.imp (fun hk => ⟨he.trans hk.1, hb.trans hk.2⟩) fun hg => ⟨hpos, hg.congr he hb⟩
  dsimp only at e
  by_cases hr : r = 0
  · rw [if_pos hr] at e
    obtain ⟨rfl, rfl⟩ := Prod.mk.inj e
    rw [HeapSystem.allocated, if_pos hr] at hinv
    exact ⟨hinv.onConsole (_, u.env) p.frames, heffect _ rfl rfl⟩
  · rw [if_neg hr] at e
    obtain ⟨rfl, rfl⟩ := Prod.mk.inj e
    refine ⟨?_, heffect _ rfl rfl⟩
    rw [HeapSystem.allocated, if_neg hr] at hinv ⊢
    -- the scribble stays inside the new payload
    refine (hinv.write (m := u.mem.memset r 0xAB size.toNat) fun a ha => ?_).onConsole
      (_, u.env) p.frames
    refine Mem.memset_apply_of_disjoint _ _ (by_contra fun hin => ha ⟨_, Set.mem_insert _ _, ?_⟩)
    simp only
    omega

/-- **`cmd_kfree`**. -/
theorem kfree (hp : ShellInv p) {addr r : ℕ} {t : HeapState Paging} (ha : addr < 2 ^ 32)
    (hs : OwnBlock p addr ∨ Rejected p.heap addr) (h : p.heap.cmdKfree addr = some (r, t)) :
    ShellInv ⟨p.sched, ⟨t, if r = 0 then p.kernel.live else {b ∈ p.kernel.live | b.1 ≠ addr}⟩,
      p.frames⟩ ∧ t.env = p.env ∧ t.brk = p.heap.brk := by
  unfold HeapState.cmdKfree at h
  by_cases h0 : addr = 0
  · rw [if_pos h0] at h
    obtain ⟨rfl, rfl⟩ := Prod.mk.inj (Option.some.inj h)
    exact ⟨hp.onConsole (_, p.env) p.frames, rfl, rfl⟩
  rw [if_neg h0] at h
  obtain ⟨⟨r', u⟩, hrun, e⟩ := Option.bind_eq_some_iff.1 h
  dsimp only at e
  rcases hs with ⟨⟨b, hb, rfl⟩, hstacks⟩ | hrej
  · rcases hp.heap_cases with ⟨-, -, hnone⟩ | ⟨l, hl⟩
    · exact absurd hb (hnone ▸ Set.notMem_empty b)
    obtain ⟨pre, x, post, rfl, hx, -, hptr⟩ := hl.exists_block hb
    obtain ⟨m, u', hrun', hr⟩ := runs_kfree (B := kernelBacking) hl.tiled hx
    rw [← hptr] at hrun'
    obtain ⟨rfl, rfl⟩ := hrun'.unique hrun
    rw [if_neg Nat.one_ne_zero, (runs_heapFree (B := kernelBacking) (hr.tiled hl.tiled)).2.1] at e
    obtain ⟨rfl, rfl⟩ := Prod.mk.inj (Option.some.inj e)
    refine ⟨?_, by rw [hr.state]; rfl, by rw [hr.state]; rfl⟩
    have hnext : HeapInv ⟨u, {c ∈ p.kernel.live | c.1 ≠ b.1}⟩ _ :=
      ⟨hr.tiled hl.tiled, hptr ▸ hl.accounts.release hx⟩
    obtain ⟨L₀, hown⟩ := hp.owned
    refine ⟨hp.sched, _, hown.forget ⟨_, rfl, Or.inr ⟨_, hnext.onConsole _ _⟩⟩ ?_ hstacks⟩
    rfl
  · obtain ⟨out, hrun'⟩ := runs_kfree_rejected (B := kernelBacking)
      (hp.brk_le.trans_lt window_lt) ha
      hrej
    obtain ⟨rfl, rfl⟩ := hrun'.unique hrun
    rw [if_pos rfl] at e
    obtain ⟨rfl, rfl⟩ := Prod.mk.inj (Option.some.inj e)
    rw [if_pos rfl]
    refine ⟨hp.withHeap (r := ⟨{ p.heap with out := out }, p.kernel.live⟩)
      (hp.heap_cases.imp id ?_) rfl p.frames, rfl, rfl⟩
    rintro ⟨l, hl⟩
    exact ⟨l, hl.onConsole p.env out⟩

/-- **An operation of the scheduler**. -/
theorem task (hp : ShellInv p) {taskExitAddr : ℕ} {op : SchedOp} {s : Sched} {r : KernelSystem}
    (h : SchedStep (heapApi kernelBacking) taskExitAddr op (p.sched, some p.kernel) (s, some r)) :
    ShellInv ⟨s, r, p.frames⟩ ∧ (r.heap.env = p.env ∧ r.heap.brk = p.heap.brk ∨
      ∃ size, (ShellCommand.task op).asks p.sched = some size ∧ Grown size p.heap r.heap) := by
  obtain ⟨L₀, hs⟩ := hp.owned
  refine ⟨⟨SchedStep.inv (p := (p.sched, some p.kernel)) hp.sched h, L₀,
    SchedStep.stacks (p := (p.sched, some p.kernel)) heapApi_spec_booted hp.sched hs h⟩, ?_⟩
  rcases SchedStep.heap_cases (p := (p.sched, some p.kernel)) heapApi_spec_booted hp.sched hs h with
    hkept | ⟨⟨name, entry, rfl⟩, hslot, hgrown⟩
  · refine Or.inl (hkept _ (heapApi_spec_kept p.env p.heap.brk) ?_ r rfl)
    rintro q' hq'
    obtain rfl := Option.some.inj hq'
    exact ⟨rfl, rfl⟩
  · obtain ⟨ptr, t, hrun, -, heffect⟩ := hp.run_kmalloc (n := taskStackSize) (by decide) (by decide)
      (hp.growthInWindow (by decide))
    obtain ⟨henv, hbrk⟩ := hgrown _ (heapApi_spec_kept t.env t.brk) (by
      rw [heapApi_kmalloc hrun]
      rintro q' hq'
      obtain rfl := Option.some.inj hq'
      exact ⟨rfl, rfl⟩) r rfl
    refine heffect.imp (fun hk => ⟨henv.trans hk.1, hbrk.trans hk.2⟩) fun hg => ?_
    obtain ⟨slot, hslot⟩ := Option.ne_none_iff_exists'.1 hslot
    exact ⟨_, congrArg (Option.map fun _ => align8 taskStackSize) hslot, hg.congr henv hbrk⟩

end ShellInv

/-- **What a step does to the page tables**, to the break and to the frames handed out. -/
inductive TableStep (p q : ShellState) : ShellCommand → Prop
  | alloc (henv : q.env = { p.env with pmm := p.env.pmm.pmmAllocFrame.2 })
      (hbrk : q.heap.brk = p.heap.brk)
      (hframes : q.frames = if p.env.pmm.pmmAllocFrame.1 = 0 then p.frames
        else p.frames ++ [p.env.pmm.pmmAllocFrame.1]) : TableStep p q .alloc
  | map {addr : ℕ} (ha : addr < 2 ^ 32) (henv : q.env = (p.env.cmdMap addr).2)
      (hbrk : q.heap.brk = p.heap.brk) (hframes : q.frames = p.frames) : TableStep p q (.map addr)
  | unmap {addr : ℕ} (ha : addr < 2 ^ 32) (henv : q.env = (p.env.cmdUnmap addr).2)
      (hbrk : q.heap.brk = p.heap.brk) (hframes : q.frames = p.frames) : TableStep p q (.unmap addr)
  | kept {c : ShellCommand} (henv : q.env = p.env) (hbrk : q.heap.brk = p.heap.brk)
      (hframes : q.frames = p.frames) : TableStep p q c
  | grown {c : ShellCommand} {size : ℕ} (hasks : c.asks p.sched = some size)
      (hgrown : Grown size p.heap q.heap) (hframes : q.frames = p.frames) : TableStep p q c

/-- **Every step keeps the invariant**, and does one of these things to the page tables. -/
theorem ShellStep.inv {taskExitAddr : ℕ} {c : ShellCommand} {p q : ShellState} (hp : ShellInv p)
    (hs : Sound p c) (h : ShellStep taskExitAddr c p q) : ShellInv q ∧ TableStep p q c := by
  cases h with
  | alloc =>
    refine ⟨hp.onConsole _ _, .alloc ?_ rfl ?_⟩
    · simp only [HeapState.onConsole, Pmm.cmdAlloc_pmm]
    · simp only [Pmm.cmdAlloc_addr]
  | map _ ha => exact ⟨hp.onConsole _ _, .map ha rfl rfl rfl⟩
  | unmap _ ha => exact ⟨hp.onConsole _ _, .unmap ha rfl rfl rfl⟩
  | kmalloc _ hn h =>
    obtain ⟨hinv, ⟨henv, hbrk⟩ | ⟨hpos, hgrown⟩⟩ := hp.kmalloc hn hs h
    · exact ⟨hinv, .kept henv hbrk rfl⟩
    · exact ⟨hinv, .grown (if_pos hpos) hgrown rfl⟩
  | kfree _ ha h =>
    obtain ⟨hinv, henv, hbrk⟩ := hp.kfree ha hs h
    exact ⟨hinv, .kept henv hbrk rfl⟩
  | task _ h =>
    obtain ⟨hinv, ⟨henv, hbrk⟩ | ⟨size, hasks, hgrown⟩⟩ := hp.task h
    · exact ⟨hinv, .kept henv hbrk rfl⟩
    · exact ⟨hinv, .grown hasks hgrown rfl⟩
  | write _ hm => exact ⟨hp.write hm, .kept rfl rfl rfl⟩

/-- **The system after boot**: `heap_init` has mapped the first pages of the heap, all of them if it
has succeeded. -/
theorem ShellStarted.inv {boot : Paging} {p : ShellState} (h : ShellStarted boot p) :
    ShellInv p ∧ ∃ m,
      p.env = (mapPages kernelBacking initialPages heapStart (heapEmpty m boot)).2.env ∧
      (p.heap.ready = 1 →
        (mapPages kernelBacking initialPages heapStart (heapEmpty m boot)).1 = initialPages ∧
        p.heap.brk = heapStart + initialPages * pageSize) := by
  obtain ⟨hsched, ⟨⟨m, hrun⟩, hlive⟩, -⟩ := h
  obtain ⟨t, hrun', henv, hready, -⟩ := run_heapInit kernelBacking m boot
  obtain ⟨-, rfl⟩ := Prod.mk.inj (Option.some.inj (hrun.symm.trans hrun'))
  refine ⟨⟨hsched ▸ SchedInv.schedulerInit, p.kernel.live,
    hsched ▸ StackInv.start ⟨_, rfl, ?_⟩ rfl⟩, m, henv, fun h1 => ?_⟩
  · refine hready.imp (fun h0 => ⟨h0.1, h0.2, hlive⟩) fun h1 => ?_
    exact ⟨_, HeapInv.started (B := kernelBacking) ⟨⟨m, boot, hrun⟩, h1.1, hlive⟩⟩
  · rcases hready with ⟨h0, -⟩ | ⟨-, hall, hbrk⟩
    · exact absurd (h0.symm.trans h1) Nat.zero_ne_one
    · exact ⟨hall, hbrk⟩

end JarvisOS
