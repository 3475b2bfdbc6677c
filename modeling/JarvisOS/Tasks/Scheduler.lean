import JarvisOS.Foundations.Word
import Mathlib.Logic.Function.Basic

/-!
# The task table and the round-robin scheduler

Tasks live in `maxTasks` slots. Slot 0 is the kernel itself; every other task runs on a stack
taken from the heap, so the operations here call the heap through an interface `HeapApi`. Each
operation is the source's function as one atomic step. `context_switch` stores the outgoing stack
pointer in the slot that is left; its value is an argument of the operations that switch.
-/

namespace JarvisOS

open Foundations

/-- `MAX_TASKS`. -/
abbrev maxTasks : ℕ := 8

/-- `TASK_STACK_SIZE`. -/
abbrev taskStackSize : ℕ := 8192

/-- `TASK_QUANTUM`. -/
abbrev taskQuantum : ℕ := 5

/-- `task_state_t`. -/
inductive TaskState
  | unused
  | ready
  | running
  | dead
  deriving DecidableEq, Repr

/-- `task_t`. -/
structure Task where
  esp : ℕ
  stackBase : ℕ
  id : ℕ
  name : List Char
  state : TaskState
  slices : ℕ
  counter : ℕ
  deriving DecidableEq

/-- The scheduler's variables. -/
structure Sched where
  tasks : ℕ → Task
  current : ℕ
  enabled : Bool
  switches : ℕ
  quantumLeft : ℕ

/-- The heap as the scheduler calls it, over heap states `η`. -/
structure HeapApi (η : Type) where
  kmalloc : ℕ → η → ℕ × η
  kfree : ℕ → η → ℕ × η
  /-- Write a 32-bit word at an address. -/
  store : ℕ → ℕ → η → η

namespace Sched

/-- The scheduler's variables before any code has run. -/
def zeroed : Sched where
  tasks _ := ⟨0, 0, 0, [], .unused, 0, 0⟩
  current := 0
  enabled := false
  switches := 0
  quantumLeft := taskQuantum

/-- The state of slot `i`. -/
def stateOf (s : Sched) (i : ℕ) : TaskState := (s.tasks i).state

/-- The slot can be chosen by `pick_next`. -/
def Runnable (s : Sched) (i : ℕ) : Prop := s.stateOf i = .ready ∨ s.stateOf i = .running

instance (s : Sched) (i : ℕ) : Decidable (s.Runnable i) := inferInstanceAs (Decidable (_ ∨ _))

/-- Write slot `i`. -/
def setTask (s : Sched) (i : ℕ) (t : Task) : Sched :=
  { s with tasks := Function.update s.tasks i t }

/-- Write the state of slot `i`. -/
def setState (s : Sched) (i : ℕ) (st : TaskState) : Sched :=
  s.setTask i { s.tasks i with state := st }

/-- `set_name`: at most 15 characters are kept. -/
def setName (src : List Char) : List Char := src.take 15

/-- `scheduler_init`: adopt the running kernel as task 0. -/
def schedulerInit (s : Sched) : Sched :=
  let s := (List.range maxTasks).foldl (fun s i => s.setState i .unused) s
  { s.setTask 0
      { s.tasks 0 with
        id := 0, state := .running, stackBase := 0, esp := 0, slices := 1, counter := 0
        name := setName "kernel".toList } with
    current := 0
    enabled := true }

/-! ## Creating a task -/

section Heap

variable {η : Type} (A : HeapApi η)

/-- `*--sp = v`. -/
def push (v : ℕ) (p : ℕ × η) : ℕ × η := (sub32 p.1 4, A.store (sub32 p.1 4) v p.2)

/-- The words of a new task's stack, in the order they are pushed: where `entry` returns to, where
`context_switch` returns to, the eight registers of `popa`, and `eflags` with `IF` set. -/
def initialFrame (taskExitAddr entry : ℕ) : List ℕ :=
  [taskExitAddr, entry] ++ List.replicate 8 0 ++ [0x202]

/-- The first free slot. -/
def findSlot (s : Sched) : Option ℕ :=
  (List.range' 1 (maxTasks - 1)).find? fun i => s.stateOf i = .unused

/-- `task_create`: the new task's slot, or `-1`. -/
def taskCreate (taskExitAddr : ℕ) (name : List Char) (entry : ℕ) (s : Sched) (h : η) :
    ℤ × Sched × η :=
  match s.findSlot with
  | none => (-1, s, h)
  | some slot =>
    let (stack, h) := A.kmalloc taskStackSize h
    if stack = 0 then (-1, s, h)
    else
      let (sp, h) := (initialFrame taskExitAddr entry).foldl (fun p v => push A v p)
        (u32 (stack + taskStackSize), h)
      let s := s.setTask slot
        { esp := sp, stackBase := stack, id := slot, name := setName name
          state := .ready, slices := 0, counter := 0 }
      (slot, s, h)

/-! ## Switching -/

/-- The body of `reap`'s loop: give a dead task's stack back unless it is the current task. -/
def reapSlot (p : Sched × η) (i : ℕ) : Sched × η :=
  if p.1.stateOf i = .dead ∧ i ≠ p.1.current then
    (p.1.setTask i { p.1.tasks i with stackBase := 0, state := .unused },
      if (p.1.tasks i).stackBase ≠ 0 then (A.kfree (p.1.tasks i).stackBase p.2).2 else p.2)
  else p

/-- `reap`. -/
def reap (s : Sched) (h : η) : Sched × η :=
  (List.range' 1 (maxTasks - 1)).foldl (reapSlot A) (s, h)

/-- `pick_next`. -/
def pickNext (s : Sched) : ℤ :=
  match ((List.range' 1 maxTasks).map fun step => (s.current + step) % maxTasks).find?
      fun i => s.stateOf i = .ready ∨ s.stateOf i = .running with
  | some i => i
  | none => -1

/-- `switch_to`; `esp` is the stack pointer that `context_switch` saves. -/
def switchTo (next : ℤ) (esp : ℕ) (s : Sched) : Sched :=
  if next < 0 ∨ next = s.current then s
  else
    let prev := s.current
    let s := if s.stateOf prev = .running then s.setState prev .ready else s
    let s := { s with current := next.toNat }
    let s := s.setState s.current .running
    let s := s.setTask s.current
      { s.tasks s.current with slices := u32 ((s.tasks s.current).slices + 1) }
    let s := { s with switches := u32 (s.switches + 1), quantumLeft := taskQuantum }
    s.setTask prev { s.tasks prev with esp := esp }

/-- `scheduler_tick`. -/
def schedulerTick (esp : ℕ) (s : Sched) (h : η) : Sched × η :=
  if !s.enabled then (s, h)
  else
    let (s, h) := reap A s h
    if s.quantumLeft > 1 then ({ s with quantumLeft := s.quantumLeft - 1 }, h)
    else (switchTo s.pickNext esp s, h)

end Heap

/-- `task_yield`. -/
def taskYield (esp : ℕ) (s : Sched) : Sched :=
  if !s.enabled then s else switchTo s.pickNext esp s

/-- `task_exit`, up to the loop in which the task waits to be switched away. -/
def taskExit (s : Sched) : Sched := s.setState s.current .dead

/-- `task_kill`. -/
def taskKill (id : ℕ) (s : Sched) : ℕ × Sched :=
  if id = 0 ∨ id ≥ maxTasks then (0, s)
  else if s.stateOf id = .unused then (0, s)
  else (1, s.setState id .dead)

/-! ## Reading an updated table -/

@[simp] theorem setTask_tasks_self (s : Sched) (i : ℕ) (t : Task) :
    (s.setTask i t).tasks i = t := by
  simp [setTask]

theorem setTask_tasks_of_ne (s : Sched) {i j : ℕ} (t : Task) (h : j ≠ i) :
    (s.setTask i t).tasks j = s.tasks j := by
  simp [setTask, h]

@[simp] theorem setTask_current (s : Sched) (i : ℕ) (t : Task) :
    (s.setTask i t).current = s.current := rfl

@[simp] theorem setTask_enabled (s : Sched) (i : ℕ) (t : Task) :
    (s.setTask i t).enabled = s.enabled := rfl

@[simp] theorem setTask_quantumLeft (s : Sched) (i : ℕ) (t : Task) :
    (s.setTask i t).quantumLeft = s.quantumLeft := rfl

theorem setTask_tasks (s : Sched) (i j : ℕ) (t : Task) :
    (s.setTask i t).tasks j = if j = i then t else s.tasks j := by
  by_cases h : j = i
  · subst h
    simp
  · rw [setTask_tasks_of_ne s t h, if_neg h]

theorem setTask_stateOf (s : Sched) (i j : ℕ) (t : Task) :
    (s.setTask i t).stateOf j = if j = i then t.state else s.stateOf j := by
  unfold stateOf
  rw [setTask_tasks]
  split_ifs <;> rfl

@[simp] theorem setState_current (s : Sched) (i : ℕ) (st : TaskState) :
    (s.setState i st).current = s.current := rfl

@[simp] theorem setState_enabled (s : Sched) (i : ℕ) (st : TaskState) :
    (s.setState i st).enabled = s.enabled := rfl

@[simp] theorem setState_quantumLeft (s : Sched) (i : ℕ) (st : TaskState) :
    (s.setState i st).quantumLeft = s.quantumLeft := rfl

theorem setState_stateOf (s : Sched) (i j : ℕ) (st : TaskState) :
    (s.setState i st).stateOf j = if j = i then st else s.stateOf j :=
  setTask_stateOf s i j _

/-- Changing a state leaves the rest of every slot alone. -/
theorem setState_tasks (s : Sched) (i j : ℕ) (st : TaskState) :
    (s.setState i st).tasks j =
      { s.tasks j with state := if j = i then st else s.stateOf j } := by
  unfold setState
  rw [setTask_tasks]
  split_ifs with h
  · rw [h]
  · rfl

/-! ## What the operations do to the table -/

/-- A slot after it has been reaped. -/
def reaped (t : Task) : Task := { t with stackBase := 0, state := .unused }

/-- The slots that `reap` gives back. -/
def Reapable (s : Sched) (i : ℕ) : Prop := s.stateOf i = .dead ∧ i ≠ s.current

instance (s : Sched) (i : ℕ) : Decidable (s.Reapable i) := inferInstanceAs (Decidable (_ ∧ _))

theorem not_reapable_current (s : Sched) : ¬ s.Reapable s.current := fun h => h.2 rfl

theorem not_reapable_of_ne {s : Sched} {i : ℕ} (hi : s.stateOf i ≠ .dead) : ¬ s.Reapable i :=
  fun h => hi h.1

section Reap

variable {η : Type} (A : HeapApi η)

theorem reapSlot_of_reapable {s : Sched} {i : ℕ} (hi : s.Reapable i) (h : η) :
    reapSlot A (s, h) i = (s.setTask i (reaped (s.tasks i)),
      if (s.tasks i).stackBase ≠ 0 then (A.kfree (s.tasks i).stackBase h).2 else h) :=
  if_pos hi

theorem reapSlot_of_not_reapable {s : Sched} {i : ℕ} (hi : ¬ s.Reapable i) (h : η) :
    reapSlot A (s, h) i = (s, h) :=
  if_neg hi

/-- The loop of `reap` over any list of slots. -/
theorem foldl_reapSlot (l : List ℕ) (s : Sched) (h : η) :
    (l.foldl (reapSlot A) (s, h)).1 =
      { s with
        tasks := fun j => if j ∈ l ∧ s.Reapable j then reaped (s.tasks j) else s.tasks j } := by
  induction l generalizing s h with
  | nil => simp
  | cons i l ih =>
    rw [List.foldl_cons]
    by_cases hi : s.Reapable i
    · rw [reapSlot_of_reapable A hi, ih]
      simp only [setTask_current, setTask_enabled, setTask_quantumLeft]
      refine Sched.mk.injEq .. |>.mpr ⟨funext fun j => ?_, rfl, rfl, rfl, rfl⟩
      by_cases hji : j = i
      · subst hji
        have hnot : ¬ (s.setTask j (reaped (s.tasks j))).Reapable j := fun hr => by
          have := hr.1
          simp [setTask_stateOf, reaped] at this
        simp [hnot, hi]
      · have hiff : (s.setTask i (reaped (s.tasks i))).Reapable j ↔ s.Reapable j := by
          simp [Reapable, setTask_stateOf, hji]
        simp only [hiff, setTask_tasks, hji, if_false, List.mem_cons, false_or]
    · rw [reapSlot_of_not_reapable A hi, ih]
      refine Sched.mk.injEq .. |>.mpr ⟨funext fun j => ?_, rfl, rfl, rfl, rfl⟩
      by_cases hji : j = i
      · subst hji
        simp [hi]
      · simp only [List.mem_cons, hji, false_or]

theorem mem_slots {j : ℕ} : j ∈ List.range' 1 (maxTasks - 1) ↔ 1 ≤ j ∧ j < maxTasks := by
  rw [List.mem_range'_1]
  omega

/-- **`reap`** frees exactly the reapable slots `1..maxTasks-1`. -/
theorem reap_fst (s : Sched) (h : η) :
    (reap A s h).1 =
      { s with
        tasks := fun j => if (1 ≤ j ∧ j < maxTasks) ∧ s.Reapable j then reaped (s.tasks j)
          else s.tasks j } := by
  rw [reap, foldl_reapSlot]
  simp only [mem_slots]

theorem reap_tasks (s : Sched) (h : η) (j : ℕ) :
    (reap A s h).1.tasks j =
      if (1 ≤ j ∧ j < maxTasks) ∧ s.Reapable j then reaped (s.tasks j) else s.tasks j := by
  rw [reap_fst]

theorem reap_stateOf (s : Sched) (h : η) (j : ℕ) :
    (reap A s h).1.stateOf j =
      if (1 ≤ j ∧ j < maxTasks) ∧ s.Reapable j then .unused else s.stateOf j := by
  rw [reap_fst]
  unfold stateOf
  simp only
  split_ifs <;> rfl

/-- `reap` leaves alone what it does not reap. -/
theorem reap_stateOf_of_not {s : Sched} {j : ℕ} (hj : ¬ s.Reapable j) (h : η) :
    (reap A s h).1.stateOf j = s.stateOf j := by
  rw [reap_stateOf, if_neg fun hr => hj hr.2]

@[simp] theorem reap_current (s : Sched) (h : η) : (reap A s h).1.current = s.current := by
  rw [reap_fst]

@[simp] theorem reap_quantumLeft (s : Sched) (h : η) :
    (reap A s h).1.quantumLeft = s.quantumLeft := by
  rw [reap_fst]

@[simp] theorem reap_enabled (s : Sched) (h : η) : (reap A s h).1.enabled = s.enabled := by
  rw [reap_fst]

end Reap

/-- **`pick_next`** returns a ready or running slot, or `-1` when there is none. -/
theorem pickNext_cases (s : Sched) (hc : s.current < maxTasks) :
    (s.pickNext = -1 ∧ ∀ i < maxTasks, s.stateOf i ≠ .ready ∧ s.stateOf i ≠ .running) ∨
      ∃ i < maxTasks, s.pickNext = i ∧ (s.stateOf i = .ready ∨ s.stateOf i = .running) := by
  unfold pickNext
  split
  · rename_i i hi
    refine Or.inr ⟨i, ?_, rfl, by simpa using List.find?_some hi⟩
    obtain ⟨step, -, rfl⟩ := List.mem_map.1 (List.mem_of_find?_eq_some hi)
    exact Nat.mod_lt _ (by decide)
  · rename_i hnone
    refine Or.inl ⟨rfl, fun i hi => ?_⟩
    simp only [maxTasks] at hc hi
    -- slot `i` is met at the step that leads to it around the table
    have hmem : i ∈ (List.range' 1 maxTasks).map fun step => (s.current + step) % maxTasks := by
      refine List.mem_map.2 ⟨if s.current < i then i - s.current else i + 8 - s.current, ?_, ?_⟩
      · rw [List.mem_range'_1]
        simp only [maxTasks]
        split_ifs <;> omega
      · simp only [maxTasks]
        split_ifs <;> omega
    have := List.find?_eq_none.1 hnone i hmem
    simpa using this

/-- A switch to another slot. -/
def switched (s : Sched) (next esp : ℕ) : Sched where
  tasks j :=
    { s.tasks j with
      esp := if j = s.current then esp else (s.tasks j).esp
      state := if j = next then .running
        else if j = s.current ∧ s.stateOf j = .running then .ready else s.stateOf j
      slices := if j = next then u32 ((s.tasks j).slices + 1) else (s.tasks j).slices }
  current := next
  enabled := s.enabled
  switches := u32 (s.switches + 1)
  quantumLeft := taskQuantum

theorem switched_stateOf (s : Sched) (next esp j : ℕ) :
    (s.switched next esp).stateOf j =
      if j = next then .running
      else if j = s.current ∧ s.stateOf j = .running then .ready else s.stateOf j := rfl

/-- **`switch_to`** does nothing when there is no other slot to switch to. -/
theorem switchTo_self (s : Sched) (esp : ℕ) : switchTo s.current esp s = s :=
  if_pos (Or.inr rfl)

theorem switchTo_of_ne (s : Sched) {next : ℕ} (esp : ℕ) (h : next ≠ s.current) :
    switchTo next esp s = s.switched next esp := by
  unfold switchTo
  rw [if_neg (by omega)]
  simp only [Int.toNat_natCast]
  refine Sched.mk.injEq .. |>.mpr ⟨funext fun j => ?_, rfl, ?_, ?_, rfl⟩
  · by_cases hr : (s.tasks s.current).state = .running <;>
    by_cases hj : j = s.current <;> by_cases hj' : j = next
    all_goals try subst hj
    all_goals try subst hj'
    all_goals simp_all [stateOf, setState, setTask, Function.update_apply]
  · by_cases hr : s.stateOf s.current = .running <;> simp [hr, setTask, setState]
  · by_cases hr : s.stateOf s.current = .running <;> simp [hr, setTask, setState]

/-- **`scheduler_tick`** reaps, and then counts the quantum down or switches. -/
theorem schedulerTick_of_enabled {η : Type} (A : HeapApi η) {s : Sched} (h : s.enabled = true)
    (esp : ℕ) (hp : η) :
    schedulerTick A esp s hp =
      (if (reap A s hp).1.quantumLeft > 1 then
          { (reap A s hp).1 with quantumLeft := (reap A s hp).1.quantumLeft - 1 }
        else switchTo (reap A s hp).1.pickNext esp (reap A s hp).1, (reap A s hp).2) := by
  unfold schedulerTick
  rw [h]
  simp only [Bool.not_true, Bool.false_eq_true, if_false]
  split_ifs <;> rfl

/-- A switch moves no stack. -/
theorem switchTo_stackBase (s : Sched) (next : ℤ) (esp j : ℕ) :
    ((switchTo next esp s).tasks j).stackBase = (s.tasks j).stackBase := by
  by_cases hc : next < 0 ∨ next = s.current
  · rw [switchTo, if_pos hc]
  · obtain ⟨i, rfl⟩ : ∃ i : ℕ, next = i := ⟨next.toNat, by omega⟩
    rw [switchTo_of_ne s esp (by omega)]
    rfl

/-- **`scheduler_init`** empties every slot but the kernel's, which runs. -/
theorem schedulerInit_stateOf (i : ℕ) :
    (schedulerInit zeroed).stateOf i = if i = 0 then .running else .unused := by
  by_cases hi : i = 0
  · subst hi
    rfl
  · have hall : ∀ (l : List ℕ) (t : Sched), t.stateOf i = .unused →
        (l.foldl (fun s j => s.setState j .unused) t).stateOf i = .unused := by
      intro l
      induction l with
      | nil => exact fun t ht => ht
      | cons j l ih => exact fun t ht => ih _ (by rw [setState_stateOf, ht, ite_self])
    rw [if_neg hi]
    exact (setTask_stateOf _ 0 i _).trans ((if_neg hi).trans (hall _ zeroed rfl))

theorem schedulerInit_unused {i : ℕ} (h1 : 1 ≤ i) :
    (schedulerInit zeroed).stateOf i = .unused := by
  rw [schedulerInit_stateOf, if_neg (by omega)]

/-- The slot of a task created on the stack `stack`. -/
def created (slot sp stack : ℕ) (name : List Char) : Task where
  esp := sp
  stackBase := stack
  id := slot
  name := setName name
  state := .ready
  slices := 0
  counter := 0

section Create

variable {η : Type} (A : HeapApi η) (taskExitAddr : ℕ)

/-- The stack pointer and the heap after the initial frame has been pushed on `stack`. -/
def pushFrame (entry stack : ℕ) (h : η) : ℕ × η :=
  (initialFrame taskExitAddr entry).foldl (fun p v => push A v p) (u32 (stack + taskStackSize), h)

theorem findSlot_some {s : Sched} {slot : ℕ} (h : s.findSlot = some slot) :
    1 ≤ slot ∧ slot < maxTasks ∧ s.stateOf slot = .unused := by
  obtain ⟨h1, h2⟩ := mem_slots.1 (List.mem_of_find?_eq_some h)
  exact ⟨h1, h2, by simpa using List.find?_some h⟩

/-- **`task_create`**: no slot, no memory, or a ready task in a slot that was free. -/
theorem taskCreate_cases (name : List Char) (entry : ℕ) (s : Sched) (h : η) :
    (s.findSlot = none ∧ taskCreate A taskExitAddr name entry s h = (-1, s, h)) ∨
    ((A.kmalloc taskStackSize h).1 = 0 ∧
      taskCreate A taskExitAddr name entry s h = (-1, s, (A.kmalloc taskStackSize h).2)) ∨
    ∃ slot, s.findSlot = some slot ∧ (A.kmalloc taskStackSize h).1 ≠ 0 ∧
      taskCreate A taskExitAddr name entry s h =
        ((slot : ℤ), s.setTask slot (created slot
            (pushFrame A taskExitAddr entry (A.kmalloc taskStackSize h).1
              (A.kmalloc taskStackSize h).2).1 (A.kmalloc taskStackSize h).1 name),
          (pushFrame A taskExitAddr entry (A.kmalloc taskStackSize h).1
            (A.kmalloc taskStackSize h).2).2) := by
  unfold taskCreate
  rcases hslot : s.findSlot with _ | slot
  · exact Or.inl ⟨rfl, rfl⟩
  · by_cases hz : (A.kmalloc taskStackSize h).1 = 0
    · exact Or.inr (Or.inl ⟨hz, by simp [hz]⟩)
    · exact Or.inr (Or.inr ⟨slot, rfl, hz, by simp [hz, pushFrame, created]⟩)

/-- What `task_create` does to the table. -/
theorem taskCreate_sched_cases (name : List Char) (entry : ℕ) (s : Sched) (h : η) :
    (taskCreate A taskExitAddr name entry s h).2.1 = s ∨
      ∃ slot sp stack, s.findSlot = some slot ∧
        (taskCreate A taskExitAddr name entry s h).2.1 = s.setTask slot
          (created slot sp stack name) := by
  rcases taskCreate_cases A taskExitAddr name entry s h with ⟨-, e⟩ | ⟨-, e⟩ | ⟨slot, hslot, -, e⟩
  · exact Or.inl (by rw [e])
  · exact Or.inl (by rw [e])
  · exact Or.inr ⟨slot, _, _, hslot, by rw [e]⟩

end Create

end Sched

end JarvisOS
