import JarvisOS.Foundations.Reach
import JarvisOS.Tasks.ContextSwitch
import JarvisOS.Tasks.Scheduler
import Mathlib.Order.CompletePartialOrder
import Mathlib.Order.Interval.Set.Disjoint

/-!
# Preemption is transparent

The scheduler on the machine: the tasks' stacks and the words `tasks[i].esp` lie in one memory, and
`switch_to` runs `context_switch` there, with any other suspended task as the one to go on with.
While a task runs it may compute anything, as long as the stacks of the suspended tasks are left
alone (`KeepsSuspended`). For every suspended task the specification remembers how it was suspended
(`Waiting`); in every run the frame of that context is at its saved stack pointer, and when the task
is switched to, the processor goes on from that context: `preemption_transparent`.
-/

namespace JarvisOS

open Foundations Sched

/-- What the linker has placed: the code, the task table and the kernel's stack. -/
structure Image where
  code : Word → Option Instr
  contextSwitch : Word
  loaded : CodeAt code contextSwitch JarvisOS.contextSwitch
  taskExit : Word
  tasks : ℕ
  tasks_fit : tasks + 40 * maxTasks ≤ 2 ^ 32
  stackBottom : ℕ
  stack_fit : stackBottom + 16384 ≤ 2 ^ 32
  stack_apart : stackBottom + 16384 ≤ tasks ∨ tasks + 40 * maxTasks ≤ stackBottom

/-- How a task was suspended. -/
inductive Waiting
  /-- It called `context_switch`, and this was the machine then. -/
  | called (m : Machine)
  /-- It was created, and has not run. -/
  | created (entry : Word) (stack : ℕ)

namespace Waiting

/-- The context with which the task goes on. -/
def cpu : Waiting → Cpu
  | called m => m.toCpu.returned (m.word m.esp)
  | created entry stack =>
    ⟨Function.update (fun _ => 0) .esp (BitVec.ofNat 32 (stack + taskStackSize - 4)),
      Flags.ofWord 0x202, entry⟩

/-- The words from the saved stack pointer up: the frame of its context, and for a new task the
address to which `entry` returns. -/
def words (taskExit : Word) : Waiting → List Word
  | called m => (called m).cpu.frame m.esp
  | created entry stack => (created entry stack).cpu.frame 0 ++ [taskExit]

end Waiting

/-- The scheduler and the machine; for the specification, how every suspended task was suspended. -/
structure Multitasking where
  sched : Sched
  machine : Machine
  waiting : ℕ → Waiting

/-- The slot is in use. -/
def Live (s : Sched) (i : ℕ) : Prop := i < maxTasks ∧ s.stateOf i ≠ .unused

/-- The slot is in use, and its task is not the running one. -/
def Suspended (s : Sched) (i : ℕ) : Prop := Live s i ∧ i ≠ s.current

section Steps

variable (K : Image)

/-- The address of `tasks[i].esp`. -/
def Image.slotAddr (i : ℕ) : ℕ := K.tasks + 40 * i

/-- The stack area of a task: its block, for the kernel the stack of the boot code. -/
def Image.stackArea (s : Sched) (i : ℕ) : Set ℕ :=
  if i = 0 then Set.Ico K.stackBottom (K.stackBottom + 16384)
  else Set.Ico (s.tasks i).stackBase ((s.tasks i).stackBase + taskStackSize)

/-- Nobody writes a suspended task's stack area; `tasks[i].esp` is written by `task_create` and
`context_switch` only. -/
structure KeepsSuspended (s : Sched) (mem mem' : Mem) : Prop where
  stack : ∀ i, Suspended s i → ∀ x ∈ K.stackArea s i, mem' x = mem x
  table : ∀ i < maxTasks, mem'.read32 (K.slotAddr i) = mem.read32 (K.slotAddr i)

/-- The same tasks; counters and switches of the scheduler may differ. -/
structure SameTasks (s t : Sched) : Prop where
  current : t.current = s.current
  esp : ∀ i, (t.tasks i).esp = (s.tasks i).esp
  stackBase : ∀ i, (t.tasks i).stackBase = (s.tasks i).stackBase
  state : ∀ i, t.stateOf i = s.stateOf i

/-- A block that is nobody's stack. -/
structure FreshStack (s : Sched) (stack : ℕ) : Prop where
  fit : stack + taskStackSize < 2 ^ 32
  apart : ∀ i, Live s i → Disjoint (K.stackArea s i) (Set.Ico stack (stack + taskStackSize))
  table : Disjoint (Set.Ico K.tasks (K.tasks + 40 * maxTasks))
    (Set.Ico stack (stack + taskStackSize))

/-- A heap for `task_create`: `kmalloc` leaves the suspended tasks alone, and a block that it
returns is nobody's stack. -/
structure GivesStack (A : HeapApi Mem) (s : Sched) (mem : Mem) : Prop where
  store : A.store = fun a v m => m.write32 a v
  keeps : KeepsSuspended K s mem (A.kmalloc taskStackSize mem).2
  fresh : (A.kmalloc taskStackSize mem).1 ≠ 0 → FreshStack K s (A.kmalloc taskStackSize mem).1

/-- The running task is at the call `context_switch(&tasks[current].esp, tasks[next].esp)`, on its
own stack. -/
structure CallsSwitch (s : Multitasking) (next : ℕ) : Prop where
  suspended : Suspended s.sched next
  eip : s.machine.eip = K.contextSwitch
  entry : AtEntry s.machine (BitVec.ofNat 32 (K.slotAddr s.sched.current))
    (BitVec.ofNat 32 (s.sched.tasks next).esp)
  own : Set.Ico (s.machine.esp.toNat - 36) (s.machine.esp.toNat + 12) ⊆
    K.stackArea s.sched s.sched.current

/-- What can happen. -/
inductive Multitasking.Step : Multitasking → Multitasking → Prop
  /-- The running task computes, with the interrupts that do not switch. -/
  | compute {s : Multitasking} (t : Sched) (m : Machine) (ht : SameTasks s.sched t)
      (hm : KeepsSuspended K s.sched s.machine.mem m.mem) : Step s ⟨t, m, s.waiting⟩
  | kill {s : Multitasking} (id : ℕ) : Step s { s with sched := (taskKill id s.sched).2 }
  | exit {s : Multitasking} : Step s { s with sched := taskExit s.sched }
  /-- `reap`, with any `kfree` that leaves the suspended tasks alone. -/
  | reap {s : Multitasking} (A : HeapApi Mem) {t : Sched} {mem : Mem}
      (h : Sched.reap A s.sched s.machine.mem = (t, mem))
      (hm : KeepsSuspended K t s.machine.mem mem) :
      Step s { s with sched := t, machine := { s.machine with mem := mem } }
  | createFails {s : Multitasking} (A : HeapApi Mem) (name : List Char) (entry : Word)
      (hA : GivesStack K A s.sched s.machine.mem) {t : Sched} {mem : Mem}
      (h : taskCreate A K.taskExit.toNat name entry.toNat s.sched s.machine.mem = (-1, t, mem)) :
      Step s { s with sched := t, machine := { s.machine with mem := mem } }
  /-- `task_create`, and `tasks[slot].esp` in memory. -/
  | create {s : Multitasking} (A : HeapApi Mem) (name : List Char) (entry : Word)
      (hA : GivesStack K A s.sched s.machine.mem) {slot : ℕ} {t : Sched} {mem : Mem}
      (h : taskCreate A K.taskExit.toNat name entry.toNat s.sched s.machine.mem =
        ((slot : ℤ), t, mem)) :
      Step s
        { sched := t
          machine := { s.machine with mem := mem.write32 (K.slotAddr slot) (t.tasks slot).esp }
          waiting := Function.update s.waiting slot (.created entry (t.tasks slot).stackBase) }
  /-- `switch_to(next)`; the stack pointer saved is what `context_switch` stores. -/
  | switchTo {s : Multitasking} {next : ℕ} {m : Machine} (hcall : CallsSwitch K s next)
      (hrun : s.machine.run K.code contextSwitch.length = some m) :
      Step s
        { sched := switchTo next (m.mem.read32 (K.slotAddr s.sched.current)) s.sched
          machine := m
          waiting := Function.update s.waiting s.sched.current (.called s.machine) }

/-- The system after `scheduler_init`: no other task, and a table without saved stack pointers. -/
structure Multitasking.Init (s : Multitasking) : Prop where
  sched : s.sched = schedulerInit zeroed
  table : ∀ i < maxTasks, s.machine.mem.read32 (K.slotAddr i) = 0

/-- The states that a run can reach. -/
def Multitasking.Reachable : Multitasking → Prop := Reach (Multitasking.Init K)
    (Multitasking.Step K)

/-! ## The invariant -/

/-- The saved stack pointer of a task points at what it goes on with. -/
structure FrameOf (w : Waiting) (s : Sched) (i : ℕ) (mem : Mem) : Prop where
  fit : (s.tasks i).esp + 40 < 2 ^ 32
  words : mem.WordsAt (s.tasks i).esp (w.words K.taskExit)
  esp : (w.cpu.regs .esp).toNat = (s.tasks i).esp + 40
  inside : Set.Ico (s.tasks i).esp ((s.tasks i).esp + 4 * (w.words K.taskExit).length) ⊆
    K.stackArea s i
  own : ∀ entry stack, w = .created entry stack → i ≠ 0 ∧ stack = (s.tasks i).stackBase

/-- **The invariant.** -/
structure Multitasking.Inv (s : Multitasking) : Prop where
  current : Live s.sched s.sched.current
  table : ∀ i < maxTasks, s.machine.mem.read32 (K.slotAddr i) = (s.sched.tasks i).esp
  area : ∀ i, Live s.sched i →
    Disjoint (Set.Ico K.tasks (K.tasks + 40 * maxTasks)) (K.stackArea s.sched i)
  apart : ∀ i j, Live s.sched i → Live s.sched j → i ≠ j →
    Disjoint (K.stackArea s.sched i) (K.stackArea s.sched j)
  frame : ∀ i, Suspended s.sched i → FrameOf K (s.waiting i) s.sched i s.machine.mem

end Steps

variable {K : Image} {s : Multitasking} {t : Sched} {m : Machine}

theorem stackArea_congr {u : Sched} {i : ℕ} (h : (t.tasks i).stackBase = (u.tasks i).stackBase) :
    K.stackArea t i = K.stackArea u i := by
  unfold Image.stackArea
  rw [h]

theorem FrameOf.congr {w : Waiting} {u : Sched} {i : ℕ} {mem mem' : Mem} (h : FrameOf K w u i mem)
    (hesp : (t.tasks i).esp = (u.tasks i).esp)
    (hbase : (t.tasks i).stackBase = (u.tasks i).stackBase)
    (hmem : ∀ x ∈ K.stackArea u i, mem' x = mem x) : FrameOf K w t i mem' where
  fit := hesp ▸ h.fit
  words := by
    rw [hesp]
    exact h.words.congr fun x h1 h2 => hmem x (h.inside ⟨h1, h2⟩)
  esp := hesp ▸ h.esp
  inside := by
    rw [hesp, stackArea_congr hbase]
    exact h.inside
  own entry stack hw := by
    rw [hbase]
    exact h.own entry stack hw

namespace Multitasking.Inv

theorem start (h : Init K s) : Inv K s := by
  have hlive : ∀ i, Live s.sched i → i = 0 := by
    intro i hi
    by_contra hne
    exact hi.2 (by rw [h.sched]; exact schedulerInit_unused (Nat.pos_of_ne_zero hne))
  have hesp : ∀ i < maxTasks, (s.sched.tasks i).esp = 0 := by
    rw [h.sched]
    decide
  constructor
  case current =>
    rw [h.sched]
    exact ⟨by decide, by rw [schedulerInit_stateOf]; decide⟩
  case table =>
    intro i hi
    rw [h.table i hi, hesp i hi]
  case area =>
    intro i hi
    have hapart := K.stack_apart
    rw [hlive i hi, Image.stackArea, if_pos rfl, Set.Ico_disjoint_Ico]
    omega
  case apart =>
    intro i j hi hj hij
    exact absurd ((hlive i hi).trans (hlive j hj).symm) hij
  case frame =>
    intro i hi
    have hcur : s.sched.current = 0 := by rw [h.sched]; rfl
    exact absurd ((hlive i hi.1).trans hcur.symm) hi.2

/-- **The running task** goes on, and slots may be given up. -/
theorem keep (h : Inv K s) (hcurrent : t.current = s.sched.current)
    (hlive : ∀ i, Live t i → Live s.sched i) (hrun : Live t t.current)
    (hesp : ∀ i, (t.tasks i).esp = (s.sched.tasks i).esp)
    (hbase : ∀ i, Live t i → (t.tasks i).stackBase = (s.sched.tasks i).stackBase)
    (hm : KeepsSuspended K t s.machine.mem m.mem) : Inv K ⟨t, m, s.waiting⟩ where
  current := hrun
  table i hi := by rw [hm.table i hi, h.table i hi, hesp i]
  area i hi := by
    rw [stackArea_congr (hbase i hi)]
    exact h.area i (hlive i hi)
  apart i j hi hj hij := by
    rw [stackArea_congr (hbase i hi), stackArea_congr (hbase j hj)]
    exact h.apart i j (hlive i hi) (hlive j hj) hij
  frame i hi := by
    refine (h.frame i ⟨hlive i hi.1, hcurrent ▸ hi.2⟩).congr (hesp i) (hbase i hi.1) ?_
    rw [← stackArea_congr (hbase i hi.1)]
    exact hm.stack i hi

/-- Changing states only. -/
theorem setStates (h : Inv K s) (hcurrent : t.current = s.sched.current)
    (htasks : ∀ i, t.tasks i = { s.sched.tasks i with state := t.stateOf i })
    (hstate : ∀ i, t.stateOf i = .unused ↔ s.sched.stateOf i = .unused) :
    Inv K { s with sched := t } := by
  have hlive : ∀ i, Live t i ↔ Live s.sched i :=
    fun i => and_congr_right fun _ => not_congr (hstate i)
  refine h.keep hcurrent (fun i => (hlive i).1) ?_ ?_ ?_ ⟨fun _ _ _ _ => rfl, fun _ _ => rfl⟩
  · rw [hlive, hcurrent]
    exact h.current
  · intro i
    rw [htasks i]
  · intro i _
    rw [htasks i]

theorem compute (h : Inv K s) (ht : SameTasks s.sched t)
    (hm : KeepsSuspended K s.sched s.machine.mem m.mem) : Inv K ⟨t, m, s.waiting⟩ := by
  have hlive : ∀ i, Live t i ↔ Live s.sched i := by
    intro i
    unfold Live
    rw [ht.state i]
  refine h.keep ht.current (fun i => (hlive i).1) ?_ ht.esp (fun i _ => ht.stackBase i)
    ⟨?_, hm.table⟩
  · rw [hlive, ht.current]
    exact h.current
  · intro i hi
    rw [stackArea_congr (ht.stackBase i)]
    exact hm.stack i ⟨(hlive i).1 hi.1, ht.current ▸ hi.2⟩

/-- Marking a live slot dead. -/
theorem setDead (h : Inv K s) {i : ℕ} (hi : s.sched.stateOf i ≠ .unused) :
    Inv K { s with sched := s.sched.setState i .dead } := by
  refine h.setStates rfl ?_ ?_
  · intro j
    rw [setState_stateOf]
    exact setState_tasks ..
  · intro j
    rw [setState_stateOf]
    by_cases hj : j = i
    · rw [if_pos hj, hj]
      exact ⟨fun hd => absurd hd (by decide), fun hu => absurd hu hi⟩
    · rw [if_neg hj]

theorem kill (h : Inv K s) (id : ℕ) : Inv K { s with sched := (taskKill id s.sched).2 } := by
  unfold taskKill
  split_ifs with h1 h2
  · exact h
  · exact h
  · exact h.setDead h2

theorem reap (h : Inv K s) {A : HeapApi Mem} {mem : Mem}
    (hr : Sched.reap A s.sched s.machine.mem = (t, mem))
    (hm : KeepsSuspended K t s.machine.mem mem) :
    Inv K { s with sched := t, machine := { s.machine with mem := mem } } := by
  have htasks : ∀ i, t.tasks i = if (1 ≤ i ∧ i < maxTasks) ∧ s.sched.Reapable i
      then reaped (s.sched.tasks i) else s.sched.tasks i := by
    intro i
    have := reap_tasks A s.sched s.machine.mem i
    rwa [hr] at this
  have hcurrent : t.current = s.sched.current := by
    have := congrArg Sched.current (reap_fst A s.sched s.machine.mem)
    rwa [hr] at this
  -- a slot that is still in use has not been reaped
  have hkept : ∀ i, Live t i → t.tasks i = s.sched.tasks i := by
    intro i hi
    rw [htasks i, if_neg]
    intro hreap
    exact hi.2 (by rw [stateOf, htasks i, if_pos hreap]; rfl)
  have hrun : t.tasks s.sched.current = s.sched.tasks s.sched.current := by
    rw [htasks, if_neg (fun hreap => hreap.2.2 rfl)]
  refine h.keep (m := { s.machine with mem := mem }) hcurrent ?_ ?_ ?_ ?_ hm
  · intro i hi
    refine ⟨hi.1, ?_⟩
    have hstate := hi.2
    rwa [stateOf, hkept i hi] at hstate
  · rw [hcurrent]
    refine ⟨h.current.1, ?_⟩
    rw [stateOf, hrun]
    exact h.current.2
  · intro i
    rw [htasks i]
    split_ifs <;> rfl
  · intro i hi
    rw [hkept i hi]

end Multitasking.Inv

/-! ## The initial frame -/

/-- Pushing through a heap that writes to memory is pushing in memory. -/
theorem foldl_push_memory {A : HeapApi Mem} (hA : A.store = fun a v m => m.write32 a v)
    (ws : List Word) {sp : ℕ} (hsp : sp < 2 ^ 32) (hroom : 4 * ws.length ≤ sp) (mem : Mem) :
    (ws.map BitVec.toNat).foldl (fun p v => push A v p) (sp, mem) =
      ws.foldl Mem.pushWord (sp, mem) := by
  induction ws generalizing sp mem with
  | nil => rfl
  | cons w ws ih =>
    rw [List.length_cons] at hroom
    have hsub : sub32 sp 4 = sp - 4 := sub32_of_le (by omega) hsp
    rw [List.map_cons, List.foldl_cons, List.foldl_cons, push, Mem.pushWord, hA, hsub]
    exact ih (by omega) (by omega) _

/-- **The initial frame** is one that `context_switch` could have saved, with the address of
`task_exit` above it. -/
theorem pushFrame_memory {A : HeapApi Mem} (hA : A.store = fun a v m => m.write32 a v)
    (taskExit entry : Word) {stack : ℕ} (hfit : stack + taskStackSize < 2 ^ 32) (mem : Mem) :
    (pushFrame A taskExit.toNat entry.toNat stack mem).1 = stack + taskStackSize - 44 ∧
    (pushFrame A taskExit.toNat entry.toNat stack mem).2.WordsAt (stack + taskStackSize - 44)
      ((Waiting.created entry stack).words taskExit) ∧
    ∀ x, x ∉ Set.Ico stack (stack + taskStackSize) →
      (pushFrame A taskExit.toNat entry.toNat stack mem).2 x = mem x := by
  obtain ⟨ws, hws⟩ : ∃ ws : List Word, ws = [taskExit, entry, 0, 0, 0, 0, 0, 0, 0, 0, 0x202] :=
    ⟨_, rfl⟩
  have hlen : 4 * ws.length = 44 := by rw [hws]; rfl
  have hroom : 4 * ws.length ≤ stack + taskStackSize := by
    rw [hlen]
    simp only [taskStackSize]
    omega
  have hframe : initialFrame taskExit.toNat entry.toNat = ws.map BitVec.toNat := by
    rw [hws]
    rfl
  have hwords : ws.reverse = (Waiting.created entry stack).words taskExit := by
    rw [hws]
    rfl
  obtain ⟨hsp, hat, hout⟩ := Mem.pushes_spec ws mem hroom
  rw [pushFrame, u32_of_lt hfit, hframe, foldl_push_memory hA ws hfit hroom, ← hwords, ← hlen]
  refine ⟨hsp, hat, ?_⟩
  intro x hx
  apply hout
  rw [Set.mem_Ico, not_and_or, not_le, not_lt] at hx
  simp only [taskStackSize] at hx ⊢
  omega

/-- The words of the table lie apart. -/
theorem slotAddr_apart {i j : ℕ} (hij : i ≠ j) :
    K.slotAddr i + 4 ≤ K.slotAddr j ∨ K.slotAddr j + 4 ≤ K.slotAddr i := by
  unfold Image.slotAddr
  omega

/-- The words of the table lie in the table. -/
theorem slotAddr_mem {i : ℕ} (hi : i < maxTasks) :
    Set.Ico (K.slotAddr i) (K.slotAddr i + 4) ⊆ Set.Ico K.tasks (K.tasks + 40 * maxTasks) := by
  unfold Image.slotAddr
  simp only [maxTasks] at hi ⊢
  apply Set.Ico_subset_Ico
  · omega
  · omega

/-- Writing a word of the table changes no byte outside the table. -/
theorem write_table {i x v : ℕ} {mem : Mem} (hi : i < maxTasks)
    (hx : x ∉ Set.Ico K.tasks (K.tasks + 40 * maxTasks)) :
    mem.write32 (K.slotAddr i) v x = mem x := by
  apply Mem.write32_apply_of_disjoint
  by_contra hin
  exact hx (slotAddr_mem hi ⟨by omega, by omega⟩)

/-- Writing outside the table changes no word of it. -/
theorem read_table {i : ℕ} {mem mem' : Mem} (hi : i < maxTasks)
    (hmem : ∀ x ∈ Set.Ico K.tasks (K.tasks + 40 * maxTasks), mem' x = mem x) :
    mem'.read32 (K.slotAddr i) = mem.read32 (K.slotAddr i) :=
  Mem.read32_congr fun x h1 h2 => hmem x (slotAddr_mem hi ⟨h1, h2⟩)

namespace Multitasking.Inv

theorem createFails (h : Inv K s) {A : HeapApi Mem} {name : List Char} {entry : Word}
    (hA : GivesStack K A s.sched s.machine.mem) {mem : Mem}
    (hc : taskCreate A K.taskExit.toNat name entry.toNat s.sched s.machine.mem = (-1, t, mem)) :
    Inv K { s with sched := t, machine := { s.machine with mem := mem } } := by
  have hsame : SameTasks s.sched s.sched := ⟨rfl, fun _ => rfl, fun _ => rfl, fun _ => rfl⟩
  rcases taskCreate_cases A K.taskExit.toNat name entry.toNat s.sched s.machine.mem with
    ⟨-, e⟩ | ⟨-, e⟩ | ⟨slot, -, -, e⟩
  · obtain ⟨-, hrest⟩ := Prod.mk.inj (e.symm.trans hc)
    obtain ⟨rfl, rfl⟩ := Prod.mk.inj hrest
    exact h
  · obtain ⟨-, hrest⟩ := Prod.mk.inj (e.symm.trans hc)
    obtain ⟨rfl, rfl⟩ := Prod.mk.inj hrest
    exact h.compute (m := { s.machine with mem := _ }) hsame hA.keeps
  · obtain ⟨hslot, -⟩ := Prod.mk.inj (e.symm.trans hc)
    exact absurd hslot (by omega)

end Multitasking.Inv

/-- **`task_create`** puts the initial frame on a block that is nobody's stack. -/
theorem taskCreate_memory {u : Sched} {A : HeapApi Mem} {name : List Char} {entry : Word}
    {mem₀ mem : Mem}
    {slot : ℕ} (hA : GivesStack K A u mem₀)
    (hc : taskCreate A K.taskExit.toNat name entry.toNat u mem₀ = ((slot : ℤ), t, mem)) :
    ∃ stack mem₁, FreshStack K u stack ∧ u.findSlot = some slot ∧
      t = u.setTask slot (created slot (stack + taskStackSize - 44) stack name) ∧
      KeepsSuspended K u mem₀ mem₁ ∧
      mem.WordsAt (stack + taskStackSize - 44) ((Waiting.created entry stack).words K.taskExit) ∧
      ∀ x, x ∉ Set.Ico stack (stack + taskStackSize) → mem x = mem₁ x := by
  rcases taskCreate_cases A K.taskExit.toNat name entry.toNat u mem₀ with
    ⟨-, e⟩ | ⟨-, e⟩ | ⟨slot', hfind, hne, e⟩
  · exact absurd (Prod.mk.inj (e.symm.trans hc)).1 (by omega)
  · exact absurd (Prod.mk.inj (e.symm.trans hc)).1 (by omega)
  · have hfresh := hA.fresh hne
    obtain ⟨hsp, hwords, hout⟩ := pushFrame_memory hA.store K.taskExit entry hfresh.fit
      (A.kmalloc taskStackSize mem₀).2
    obtain ⟨hslot, hrest⟩ := Prod.mk.inj (e.symm.trans hc)
    obtain ⟨ht, hmem⟩ := Prod.mk.inj hrest
    obtain rfl : slot' = slot := by omega
    rw [hsp] at ht
    rw [hmem] at hwords hout
    exact ⟨_, _, hfresh, hfind, ht.symm, hA.keeps, hwords, hout⟩

/-- The frame of a new task. -/
theorem frameOf_created {slot stack : ℕ} {name : List Char} {entry : Word} {mem : Mem}
    (h1 : 1 ≤ slot)
    (hfit : stack + taskStackSize < 2 ^ 32)
    (ht : t.tasks slot = created slot (stack + taskStackSize - 44) stack name)
    (hwords : mem.WordsAt (stack + taskStackSize - 44)
      ((Waiting.created entry stack).words K.taskExit)) :
    FrameOf K (.created entry stack) t slot mem := by
  have hesp : (t.tasks slot).esp = stack + taskStackSize - 44 := by
    rw [ht]
    rfl
  have hbase : (t.tasks slot).stackBase = stack := by
    rw [ht]
    rfl
  constructor
  case fit =>
    rw [hesp]
    simp only [taskStackSize] at *
    omega
  case words =>
    rw [hesp]
    exact hwords
  case esp =>
    have hcpu : (Waiting.created entry stack).cpu.regs .esp =
        BitVec.ofNat 32 (stack + taskStackSize - 4) := rfl
    rw [hcpu, hesp, BitVec.toNat_ofNat, Nat.mod_eq_of_lt ((Nat.sub_le ..).trans_lt hfit)]
    simp only [taskStackSize]
    omega
  case inside =>
    have hlen : ((Waiting.created entry stack).words K.taskExit).length = 11 := rfl
    rw [hesp, hlen, Image.stackArea, if_neg (by omega), hbase]
    apply Set.Ico_subset_Ico
    · simp only [taskStackSize]
      omega
    · simp only [taskStackSize]
      omega
  case own =>
    intro entry' stack' e
    rw [hbase]
    cases e
    exact ⟨by omega, rfl⟩

/-- The frame of a task that calls `context_switch`. -/
theorem frameOf_called {i : ℕ} {mem : Mem} (hroom : 36 ≤ m.esp.toNat)
    (hfit : m.esp.toNat + 12 ≤ 2 ^ 32)
    (hown : Set.Ico (m.esp.toNat - 36) (m.esp.toNat + 12) ⊆ K.stackArea t i)
    (ht : (t.tasks i).esp = (m.esp - 36).toNat)
    (hwords : mem.WordsAt (m.esp - 36).toNat ((Waiting.called m).words K.taskExit)) :
    FrameOf K (.called m) t i mem := by
  have hsub := Machine.toNat_esp_sub hroom
  have hcpu : (Waiting.called m).cpu.regs .esp = m.esp + 4 := rfl
  have hlen : ((Waiting.called m).words K.taskExit).length = 10 := rfl
  constructor
  case fit =>
    rw [ht, hsub]
    omega
  case words =>
    rw [ht]
    exact hwords
  case esp =>
    rw [hcpu, ht, hsub]
    bv_omega
  case inside =>
    rw [ht, hsub, hlen]
    exact (Set.Ico_subset_Ico le_rfl (by omega)).trans hown
  case own =>
    intro entry stack e
    cases e

/-- What `context_switch` takes up of the words at a saved stack pointer. -/
theorem Waiting.frame_of_words {w : Waiting} {taskExit : Word} {mem : Mem} {a : ℕ}
    (h : mem.WordsAt a (w.words taskExit)) : ∃ skipped, mem.WordsAt a (w.cpu.frame skipped) := by
  cases w with
  | called m => exact ⟨m.esp, h⟩
  | created entry stack => exact ⟨0, ((Mem.wordsAt_append _ _).1 h).1⟩

theorem Waiting.four_mul_length (w : Waiting) (taskExit : Word) :
    40 ≤ 4 * (w.words taskExit).length := by
  cases w with
  | called m => exact le_refl 40
  | created entry stack => exact Nat.le_add_right 40 4

/-- `t` is `s` with a new task in an unused slot, on the block at `stack`. -/
structure Added (s t : Sched) (slot stack : ℕ) (name : List Char) : Prop where
  first : 1 ≤ slot
  lt : slot < maxTasks
  unused : s.stateOf slot = .unused
  self : t.tasks slot = created slot (stack + taskStackSize - 44) stack name
  other : ∀ i, i ≠ slot → t.tasks i = s.tasks i
  current : t.current = s.current

namespace Added

variable {s t : Sched} {slot stack i j : ℕ} {name : List Char}

theorem of_findSlot (h : s.findSlot = some slot)
    (ht : t = s.setTask slot (created slot (stack + taskStackSize - 44) stack name)) :
    Added s t slot stack name := by
  obtain ⟨h1, h2, h3⟩ := findSlot_some h
  exact ⟨h1, h2,
    h3, by rw [ht, setTask_tasks_self], fun i hi => by rw [ht, setTask_tasks_of_ne _ _ hi],
    by rw [ht, setTask_current]⟩

theorem stateOf (h : Added s t slot stack name) (hi : i ≠ slot) : t.stateOf i = s.stateOf i := by
  rw [Sched.stateOf, h.other i hi]
  rfl

theorem live (h : Added s t slot stack name) (hi : i ≠ slot) (hl : Live t i) : Live s i :=
  ⟨hl.1, h.stateOf hi ▸ hl.2⟩

theorem stackArea_self (h : Added s t slot stack name) :
    K.stackArea t slot = Set.Ico stack (stack + taskStackSize) := by
  have hfirst := h.first
  rw [Image.stackArea, if_neg (by omega), h.self]
  rfl

theorem stackArea (h : Added s t slot stack name) (hi : i ≠ slot) :
    K.stackArea t i = K.stackArea s i :=
  stackArea_congr (by rw [h.other i hi])

/-- The stacks are apart. -/
theorem apart (h : Added s t slot stack name) (hfresh : FreshStack K s stack)
    (hapart : ∀ i j, Live s i → Live s j → i ≠ j → Disjoint (K.stackArea s i) (K.stackArea s j))
    (hi : Live t i) (hj : Live t j) (hij : i ≠ j) : Disjoint (K.stackArea t i)
      (K.stackArea t j) := by
  by_cases his : i = slot
  · have hjs : j ≠ slot := fun e => hij (his.trans e.symm)
    rw [his, h.stackArea_self, h.stackArea hjs]
    exact (hfresh.apart j (h.live hjs hj)).symm
  · rw [h.stackArea his]
    by_cases hjs : j = slot
    · rw [hjs, h.stackArea_self]
      exact hfresh.apart i (h.live his hi)
    · rw [h.stackArea hjs]
      exact hapart i j (h.live his hi) (h.live hjs hj) hij

/-- The new task's frame. -/
theorem frame (h : Added s t slot stack name) {entry : Word} {mem : Mem}
    (hfresh : FreshStack K s stack)
    (hwords : mem.WordsAt (stack + taskStackSize - 44)
      ((Waiting.created entry stack).words K.taskExit)) :
    FrameOf K (.created entry (t.tasks slot).stackBase) t slot
      (mem.write32 (K.slotAddr slot) (t.tasks slot).esp) := by
  have hbase : (t.tasks slot).stackBase = stack := by
    rw [h.self]
    rfl
  rw [hbase]
  refine (frameOf_created h.first hfresh.fit h.self hwords).congr rfl rfl ?_
  rw [h.stackArea_self]
  exact fun x hx => write_table h.lt (Set.disjoint_right.1 hfresh.table hx)

end Added

namespace Multitasking.Inv

/-- **A new task** waits in the frame on its own block. -/
theorem create (h : Inv K s) {slot stack : ℕ} {name : List Char} {entry : Word} {mem₁ mem : Mem}
    (hfresh : FreshStack K s.sched stack) (hfind : s.sched.findSlot = some slot)
    (hkeeps : KeepsSuspended K s.sched s.machine.mem mem₁)
    (ht : t = s.sched.setTask slot (created slot (stack + taskStackSize - 44) stack name))
    (hwords : mem.WordsAt (stack + taskStackSize - 44)
      ((Waiting.created entry stack).words K.taskExit))
    (hout : ∀ x, x ∉ Set.Ico stack (stack + taskStackSize) → mem x = mem₁ x) :
    Inv K
      { sched := t
        machine := { s.machine with mem := mem.write32 (K.slotAddr slot) (t.tasks slot).esp }
        waiting := Function.update s.waiting slot (.created entry (t.tasks slot).stackBase) } := by
  have ha : Added s.sched t slot stack name := .of_findSlot hfind ht
  have htable : ∀ x ∈ Set.Ico K.tasks (K.tasks + 40 * maxTasks), mem x = mem₁ x :=
    fun x hx => hout x (Set.disjoint_left.1 hfresh.table hx)
  constructor
  case current =>
    have hcur : s.sched.current ≠ slot := fun e => h.current.2 (e ▸ ha.unused)
    rw [ha.current]
    exact ⟨h.current.1, ha.stateOf hcur ▸ h.current.2⟩
  case table =>
    intro i hi
    by_cases his : i = slot
    · rw [his, Mem.read32_write32_same, ha.self, u32_of_lt]
      exact (Nat.sub_le ..).trans_lt hfresh.fit
    · rw [Mem.read32_write32_of_disjoint _ _ (slotAddr_apart his), read_table hi htable,
        hkeeps.table i hi, h.table i hi, ha.other i his]
  case area =>
    intro i hi
    by_cases his : i = slot
    · rw [his, ha.stackArea_self]
      exact hfresh.table
    · rw [ha.stackArea his]
      exact h.area i (ha.live his hi)
  case apart => exact fun i j hi hj hij => ha.apart hfresh h.apart hi hj hij
  case frame =>
    intro i hi
    show FrameOf K (Function.update s.waiting slot _ i) t i _
    by_cases his : i = slot
    · rw [his, Function.update_self]
      exact ha.frame hfresh hwords
    · have hl := ha.live his hi.1
      have hsus : Suspended s.sched i := ⟨hl, ha.current ▸ hi.2⟩
      rw [Function.update_of_ne his]
      refine (h.frame i hsus).congr (by rw [ha.other i his]) (by rw [ha.other i his]) ?_
      intro x hx
      show mem.write32 _ _ x = s.machine.mem x
      rw [write_table ha.lt (Set.disjoint_right.1 (h.area i hl) hx),
        hout x (Set.disjoint_left.1 (hfresh.apart i hl) hx), hkeeps.stack i hsus x hx]

/-- A call of `context_switch` writes the stack it is made on, and the table. -/
theorem switch_keeps (h : Inv K s) {mem₁ : Mem} {v : ℕ}
    (hout : ∀ x, x ∉ K.stackArea s.sched s.sched.current → mem₁ x = s.machine.mem x) {i : ℕ}
    (hi : Suspended s.sched i) {x : ℕ} (hx : x ∈ K.stackArea s.sched i) :
    mem₁.write32 (K.slotAddr s.sched.current) v x = s.machine.mem x := by
  rw [write_table h.current.1 (Set.disjoint_right.1 (h.area i hi.1) hx)]
  exact hout x (Set.disjoint_left.1 (h.apart i _ hi.1 h.current hi.2) hx)

/-- **`context_switch`** leaves the caller's frame on its stack, and the processor goes on from the
context of `next`. -/
theorem run_switch (h : Inv K s) {next : ℕ} (hcall : CallsSwitch K s next) : ∃ mem₁ : Mem,
    s.machine.run K.code contextSwitch.length = some
      { (s.waiting next).cpu with
        mem := mem₁.write32 (K.slotAddr s.sched.current) (s.machine.esp - 36).toNat } ∧
    mem₁.WordsAt (s.machine.esp - 36).toNat ((Waiting.called s.machine).words K.taskExit) ∧
    ∀ x, x ∉ K.stackArea s.sched s.sched.current → mem₁ x = s.machine.mem x := by
  obtain ⟨mem₁, hframe, hout, hgo⟩ := contextSwitch_spec hcall.entry
  have hnext := h.frame next hcall.suspended
  have hroom := hcall.entry.room
  have hsub := Machine.toNat_esp_sub hroom
  have hkeep : ∀ x, x ∉ K.stackArea s.sched s.sched.current → mem₁ x = s.machine.mem x := by
    intro x hx
    apply hout
    by_contra hin
    exact hx (hcall.own ⟨by omega, by omega⟩)
  have hcurrent := h.current.1
  have hfit := K.tasks_fit
  have hslot : (BitVec.ofNat 32 (K.slotAddr s.sched.current)).toNat =
    K.slotAddr s.sched.current := by
    rw [BitVec.toNat_ofNat, Image.slotAddr]
    simp only [maxTasks] at *
    omega
  have hesp : (BitVec.ofNat 32 (s.sched.tasks next).esp).toNat = (s.sched.tasks next).esp := by
    rw [BitVec.toNat_ofNat]
    exact Nat.mod_eq_of_lt ((Nat.le_add_right ..).trans_lt hnext.fit)
  have hregs : (s.waiting next).cpu.regs .esp = BitVec.ofNat 32 (s.sched.tasks next).esp + 40 := by
    have h1 := hnext.esp
    have h2 := hnext.fit
    bv_omega
  obtain ⟨skipped, hwords⟩ := Waiting.frame_of_words hnext.words
  have hwords' : (mem₁.write32 (K.slotAddr s.sched.current) (s.machine.esp - 36).toNat).WordsAt
      (s.sched.tasks next).esp ((s.waiting next).cpu.frame skipped) := by
    apply hwords.congr
    intro x h1 h2
    apply h.switch_keeps hkeep hcall.suspended
    exact hnext.inside ⟨h1, h2.trans_le (Nat.add_le_add_left (Waiting.four_mul_length _ _) _)⟩
  have hrun : s.machine.run K.code contextSwitch.length =
      some (contextSwitch.foldl Machine.exec s.machine) := by
    apply run_block (by decide)
    rw [hcall.eip]
    exact K.loaded
  refine ⟨mem₁, ?_, hframe, hkeep⟩
  rw [hslot, hesp] at hgo
  rw [hrun, hgo (c := (s.waiting next).cpu) hnext.fit.le hwords', ← hregs, Function.update_eq_self]

/-- The running task is suspended, and another one goes on. -/
theorem suspend (h : Inv K s) {next esp : ℕ} {w : Waiting} (hnext : Suspended s.sched next)
    (hcurrent : t.current = next) (hlive : ∀ i, Live t i ↔ Live s.sched i)
    (hbase : ∀ i, (t.tasks i).stackBase = (s.sched.tasks i).stackBase)
    (hesp : ∀ i, (t.tasks i).esp = if i = s.sched.current then esp else (s.sched.tasks i).esp)
    (htable : ∀ i < maxTasks, m.mem.read32 (K.slotAddr i) =
      if i = s.sched.current then esp else s.machine.mem.read32 (K.slotAddr i))
    (harea : ∀ i, Suspended s.sched i → ∀ x ∈ K.stackArea s.sched i, m.mem x = s.machine.mem x)
    (hframe : FrameOf K w t s.sched.current m.mem) :
    Inv K ⟨t, m, Function.update s.waiting s.sched.current w⟩ where
  current := by
    rw [hlive, hcurrent]
    exact hnext.1
  table i hi := by
    rw [htable i hi, hesp i, h.table i hi]
  area i hi := by
    rw [stackArea_congr (hbase i)]
    exact h.area i ((hlive i).1 hi)
  apart i j hi hj hij := by
    rw [stackArea_congr (hbase i), stackArea_congr (hbase j)]
    exact h.apart i j ((hlive i).1 hi) ((hlive j).1 hj) hij
  frame i hi := by
    have hl : Live s.sched i := (hlive i).1 hi.1
    show FrameOf K (Function.update s.waiting s.sched.current w i) t i m.mem
    by_cases his : i = s.sched.current
    · subst his
      rw [Function.update_self]
      exact hframe
    · rw [Function.update_of_ne his]
      exact (h.frame i ⟨hl, his⟩).congr (by rw [hesp i, if_neg his]) (hbase i) (harea i ⟨hl, his⟩)

/-- **A switch** suspends the running task in its frame, and leaves the other frames alone. -/
theorem switchTo (h : Inv K s) {next : ℕ} (hcall : CallsSwitch K s next)
    (hrun : s.machine.run K.code contextSwitch.length = some m) :
    Inv K
      { sched := Sched.switchTo next (m.mem.read32 (K.slotAddr s.sched.current)) s.sched
        machine := m
        waiting := Function.update s.waiting s.sched.current (.called s.machine) } := by
  obtain ⟨mem₁, hm, hwords, hout⟩ := h.run_switch hcall
  have hcurrent := h.current.1
  obtain ⟨esp, hesp⟩ : ∃ esp, esp = (s.machine.esp - 36).toNat := ⟨_, rfl⟩
  rw [← hesp] at hm hwords
  have hmem : m.mem = mem₁.write32 (K.slotAddr s.sched.current) esp :=
    (congrArg Machine.mem (Option.some.inj (hm.symm.trans hrun))).symm
  have hstored : m.mem.read32 (K.slotAddr s.sched.current) = esp := by
    rw [hmem, Mem.read32_write32_same, u32_of_lt (hesp ▸ (s.machine.esp - 36).isLt)]
  have hlive : ∀ i, Live (s.sched.switched next esp) i ↔ Live s.sched i := by
    intro i
    apply and_congr_right
    intro _
    rw [switched_stateOf]
    by_cases hn : i = next
    · rw [if_pos hn, hn]
      exact ⟨fun _ => hcall.suspended.1.2, fun _ => by decide⟩
    · rw [if_neg hn]
      split_ifs with hc
      · rw [hc.2]
        decide
      · exact Iff.rfl
  rw [hstored, switchTo_of_ne _ _ hcall.suspended.2]
  apply h.suspend hcall.suspended rfl hlive (fun i => rfl) (fun i => rfl)
  · intro i hi
    split_ifs with his
    · rw [his, hstored]
    · rw [hmem, Mem.read32_write32_of_disjoint _ _ (slotAddr_apart his)]
      exact read_table hi fun x hx => hout x (Set.disjoint_left.1 (h.area _ h.current) hx)
  · intro i hi x hx
    rw [hmem]
    exact h.switch_keeps hout hi hx
  · have hroom := hcall.entry.room
    have hsub := Machine.toNat_esp_sub hroom
    apply frameOf_called (t := s.sched.switched next esp) hroom hcall.entry.fit hcall.own
    · rw [← hesp]
      exact if_pos rfl
    · rw [← hesp, hmem]
      apply hwords.congr
      intro x h1 h2
      apply write_table hcurrent
      apply Set.disjoint_right.1 (h.area _ h.current)
      apply hcall.own
      have hlen : ((Waiting.called s.machine).words K.taskExit).length = 10 := rfl
      rw [hlen] at h2
      exact ⟨by omega, by omega⟩

/-- **Every step** keeps the invariant. -/
theorem step {u : Multitasking} (h : Inv K s) (hs : Step K s u) : Inv K u := by
  cases hs with
  | compute t m ht hm => exact h.compute ht hm
  | kill id => exact h.kill id
  | exit => exact h.setDead h.current.2
  | reap A hr hm => exact h.reap hr hm
  | createFails A name entry hA hc => exact h.createFails hA hc
  | create A name entry hA hc =>
    obtain ⟨stack, mem₁, hfresh, hfind, ht, hkeeps, hwords, hout⟩ := taskCreate_memory hA hc
    exact h.create hfresh hfind hkeeps ht hwords hout
  | switchTo hcall hrun => exact h.switchTo hcall hrun

end Multitasking.Inv

theorem Multitasking.Reachable.inv (h : Reachable K s) : Inv K s :=
  Reach.invariant h (fun _ => Inv.start) fun _ _ _ => Inv.step

/-! ## Transparency -/

/-- A task that called `context_switch` is back from its call, with everything as it was; a new task
starts. -/
def Resumed (K : Image) (stackBase : ℕ) (m : Machine) : Waiting → Prop
  | .called c => m.eip = c.word c.esp ∧ m.eflags = c.eflags ∧ m.esp = c.esp + 4 ∧
      ∀ r, r ≠ .esp → m.regs r = c.regs r
  | .created entry stack => m.eip = entry ∧ m.eflags.interrupts = true ∧ m.word m.esp = K.taskExit ∧
      stack = stackBase ∧ stack ≤ m.esp.toNat ∧ m.esp.toNat + 4 ≤ stack + taskStackSize

theorem FrameOf.resumed {w : Waiting} {i : ℕ} {mem : Mem} (h : FrameOf K w t i mem)
    (hcpu : m.toCpu = w.cpu) (hmem : ∀ x ∈ K.stackArea t i, m.mem x = mem x) :
    Resumed K (t.tasks i).stackBase m w := by
  obtain ⟨cpu, mem'⟩ := m
  obtain rfl : cpu = w.cpu := hcpu
  cases w with
  | called c => exact ⟨rfl, rfl, rfl, fun r hr => Function.update_of_ne hr ..⟩
  | created entry stack =>
    obtain ⟨hi, hstack⟩ := h.own entry stack rfl
    have hesp := h.esp
    have hinside := h.inside
    have hlen : ((Waiting.created entry stack).words K.taskExit).length = 11 := rfl
    rw [hlen, Image.stackArea, if_neg hi, ← hstack] at hinside
    have hlow := (hinside ⟨le_rfl, by omega⟩).1
    have hhigh := (hinside (a := (t.tasks i).esp + 43) ⟨by omega, by omega⟩).2
    refine ⟨rfl, ?_, ?_, hstack, ?_, ?_⟩
    · show (Flags.ofWord 0x202).interrupts = true
      decide
    · have hwords := h.words.congr fun x h1 h2 => hmem x (h.inside ⟨h1, h2⟩)
      have hexit := ((Mem.wordsAt_append _ _).1 hwords).2.1
      apply Machine.word_eq
      show mem'.read32 ((Waiting.created entry stack).cpu.regs .esp).toNat = _
      rw [hesp]
      exact hexit
    · show stack ≤ ((Waiting.created entry stack).cpu.regs .esp).toNat
      omega
    · show ((Waiting.created entry stack).cpu.regs .esp).toNat + 4 ≤ _
      omega

/-- **Preemption is transparent.** In every run: the saved stack pointer of a suspended task, which
is in the task table in memory, points at the frame of its context, on its own stack; and a call of
`context_switch` for a suspended task returns, and that task is resumed. -/
theorem preemption_transparent (K : Image) {s : Multitasking} (h : Multitasking.Reachable K s) :
    (∀ i, Suspended s.sched i →
      s.machine.mem.read32 (K.slotAddr i) = (s.sched.tasks i).esp ∧
      s.machine.mem.WordsAt (s.sched.tasks i).esp ((s.waiting i).words K.taskExit) ∧
      Set.Ico (s.sched.tasks i).esp
        ((s.sched.tasks i).esp + 4 * ((s.waiting i).words K.taskExit).length) ⊆
        K.stackArea s.sched i) ∧
    ∀ next, CallsSwitch K s next → ∃ m, s.machine.run K.code contextSwitch.length = some m ∧
      Resumed K (s.sched.tasks next).stackBase m (s.waiting next) := by
  have hinv := h.inv
  refine ⟨?_, ?_⟩
  · intro i hi
    have hframe := hinv.frame i hi
    exact ⟨hinv.table i hi.1.1, hframe.words, hframe.inside⟩
  · intro next hcall
    obtain ⟨mem₁, hrun, -, hout⟩ := hinv.run_switch hcall
    exact ⟨_, hrun, (hinv.frame next hcall.suspended).resumed rfl
      fun x hx => hinv.switch_keeps hout hcall.suspended hx⟩

/-! A run: the kernel creates a task, and calls `context_switch` for it. -/

/-- An image with `context_switch` at `0x1000`. -/
def kernelImage : Image where
  code a := [(0x1000, .pusha), (0x1001, .pushfd), (0x1002, .load .eax .esp 40),
    (0x1006, .load .ecx .esp 44), (0x100A, .store .eax .esp), (0x100C, .mov .esp .ecx),
    (0x100E, .popfd), (0x100F, .popa), (0x1010, .ret)].lookup a
  contextSwitch := 0x1000
  loaded := ⟨rfl, rfl, rfl, rfl, rfl, rfl, rfl, rfl, rfl, trivial⟩
  taskExit := 0x3000
  tasks := 0x10000
  tasks_fit := by decide
  stackBottom := 0x20000
  stack_fit := by decide
  stack_apart := by decide

/-- A heap with one block. -/
def oneStack : HeapApi Mem where
  kmalloc _ m := (0xC0000010, m)
  kfree _ m := (1, m)
  store a v m := m.write32 a v

/-- The kernel, with the arguments of `context_switch` on its stack. -/
def callingKernel : Multitasking where
  sched := schedulerInit zeroed
  machine :=
    { regs := fun _ => 0x22000
      eflags := Flags.ofWord 0x202
      eip := 0x1000
      mem := (Mem.write32 (fun _ => 0) 0x22004 0x10000).write32 0x22008 0xC0001FE4 }
  waiting := fun _ => .created 0 0

/-- What `task_create` returns there. -/
def createdFirst : ℤ × Sched × Mem :=
  taskCreate oneStack kernelImage.taskExit.toNat [] (0x5000 : Word).toNat callingKernel.sched
    callingKernel.machine.mem

/-- The state after `task_create`. -/
def createdTask : Multitasking where
  sched := createdFirst.2.1
  machine := { callingKernel.machine with
    mem := createdFirst.2.2.write32 (kernelImage.slotAddr 1) (createdFirst.2.1.tasks 1).esp }
  waiting :=
    Function.update callingKernel.waiting 1 (.created 0x5000 (createdFirst.2.1.tasks 1).stackBase)

theorem reachable_createdTask : Multitasking.Reachable kernelImage createdTask := by
  have hinit : Multitasking.Init kernelImage callingKernel := ⟨rfl, by decide +kernel⟩
  have hheap : GivesStack kernelImage oneStack callingKernel.sched callingKernel.machine.mem := by
    refine ⟨rfl, ⟨fun _ _ _ _ => rfl, fun _ _ => rfl⟩, fun _ => ⟨by decide, ?_, ?_⟩⟩
    · intro i hi
      have hzero : i = 0 := by
        by_contra hne
        exact hi.2 (schedulerInit_unused (Nat.pos_of_ne_zero hne))
      rw [hzero, Image.stackArea, if_pos rfl]
      exact Set.Ico_disjoint_Ico.2 (by decide)
    · exact Set.Ico_disjoint_Ico.2 (by decide)
  have hcreate : createdFirst = (((1 : ℕ) : ℤ), createdFirst.2.1, createdFirst.2.2) := rfl
  exact Reach.next (Reach.start hinit) (Multitasking.Step.create oneStack [] 0x5000 hheap hcreate)

theorem preemption_transparent_createdTask : ∃ m,
    createdTask.machine.run kernelImage.code contextSwitch.length = some m ∧
      m.eip = 0x5000 ∧ m.eflags.interrupts = true ∧ m.word m.esp = kernelImage.taskExit := by
  have hcall : CallsSwitch kernelImage createdTask 1 := by
    refine ⟨⟨⟨by decide, by decide +kernel⟩, by decide +kernel⟩, rfl,
      ⟨?_, ?_, by decide, by decide⟩, ?_⟩
    · decide +kernel
    · decide +kernel
    · exact Set.Ico_subset_Ico (by decide) (by decide)
  obtain ⟨m, hrun, heip, hflags, hexit, -⟩ :=
    (preemption_transparent kernelImage reachable_createdTask).2 1 hcall
  exact ⟨m, hrun, heip, hflags, hexit⟩

end JarvisOS
