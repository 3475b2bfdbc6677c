import JarvisOS.Tasks.Stacks

/-!
# `task_yield` and the timer

`task_yield` runs with interrupts enabled. Here it is taken apart into its statements
(`YieldPoint`), every task may be anywhere in it, and the timer's tick may come between any two
statements (`YieldStep`). Once `current = next` has been executed and until `context_switch` has,
the processor is still on the stack of the old task; a tick that switches then stores its stack
pointer in the new task's slot. In every run in which no tick does that, every suspended task keeps
its own stack pointer (`yield_safe`), and one that does breaks it at once (`task_yield_tick`).
-/

namespace JarvisOS

open Foundations Sched

/-- Where a task is in `task_yield`: the statement to come, with the locals that are still read. -/
inductive YieldPoint
  /-- Not in `task_yield`. -/
  | outside
  /-- `if (!enabled) return;` -/
  | enter
  /-- In `pick_next`: `step <= MAX_TASKS`, and `int i = (current + step) % MAX_TASKS;` -/
  | probe (step : ℕ)
  /-- `if (tasks[i].state == TASK_READY || tasks[i].state == TASK_RUNNING) return i;` -/
  | look (step i : ℕ)
  /-- In `switch_to`: `if (next < 0 || next == current) return;` -/
  | guard (next : ℤ)
  /-- `int prev = current;` -/
  | keep (next : ℤ)
  /-- `if (tasks[prev].state == TASK_RUNNING)` -/
  | inspect (next : ℤ) (prev : ℕ)
  /-- `tasks[prev].state = TASK_READY;` -/
  | demote (next : ℤ) (prev : ℕ)
  /-- `current = next;` -/
  | advance (next : ℤ) (prev : ℕ)
  /-- `tasks[current].state = TASK_RUNNING;` -/
  | promote (prev : ℕ)
  /-- `tasks[current].slices++;` -/
  | slices (prev : ℕ)
  /-- `switches++;` -/
  | switches (prev : ℕ)
  /-- `quantum_left = TASK_QUANTUM;` -/
  | quantum (prev : ℕ)
  /-- `context_switch(&tasks[prev].esp, tasks[current].esp);` -/
  | switch (prev : ℕ)
  deriving DecidableEq

namespace YieldPoint

/-- The slot that `pick_next` has returned, while it is still to be made current. -/
def pick : YieldPoint → Option ℤ
  | guard next | keep next | inspect next _ | demote next _ | advance next _ => some next
  | _ => none

/-- `current` is ahead of the stack: it names the new task, and the processor is not on its
stack. -/
def Ahead : YieldPoint → Prop
  | promote _ | slices _ | switches _ | quantum _ | switch _ => True
  | _ => False

instance : DecidablePred Ahead := fun c => by
  cases c <;> first | exact isTrue trivial | exact isFalse id

/-- A statement of `task_yield`; `esp` is the stack pointer that `context_switch` saves. -/
def exec (esp : ℕ) (s : Sched) : YieldPoint → YieldPoint × Sched
  | outside => (outside, s)
  | enter => (if s.enabled then probe 1 else outside, s)
  | probe step =>
    (if step ≤ maxTasks then look step ((s.current + step) % maxTasks) else guard (-1), s)
  | look step i =>
    (if s.stateOf i = .ready ∨ s.stateOf i = .running then guard i else probe (step + 1), s)
  | guard next => (if next < 0 ∨ next = s.current then outside else keep next, s)
  | keep next => (inspect next s.current, s)
  | inspect next prev =>
    (if s.stateOf prev = .running then demote next prev else advance next prev, s)
  | demote next prev => (advance next prev, s.setState prev .ready)
  | advance next prev => (promote prev, { s with current := next.toNat })
  | promote prev => (slices prev, s.setState s.current .running)
  | slices prev =>
    (switches prev, s.setTask s.current
      { s.tasks s.current with slices := u32 ((s.tasks s.current).slices + 1) })
  | switches prev => (quantum prev, { s with switches := u32 (s.switches + 1) })
  | quantum prev => (switch prev, { s with quantumLeft := taskQuantum })
  | switch prev => (outside, s.setTask prev { s.tasks prev with esp := esp })

end YieldPoint

/-- The scheduler and the heap, and where the processor is. -/
structure YieldState (η : Type) where
  sched : Sched
  heap : η
  /-- The task on whose stack the processor is. -/
  cpu : ℕ
  /-- Where each task is in `task_yield`. -/
  point : ℕ → YieldPoint
  /-- For the specification: the stack pointer of each task when it was last switched out or
  created. -/
  left : ℕ → ℕ

/-- The addresses of a task's stack; the kernel's own stack is `K`. -/
def taskStack (K : Set ℕ) (s : Sched) (i : ℕ) : Set ℕ :=
  if i = 0 then K else Set.Ico (s.tasks i).stackBase ((s.tasks i).stackBase + taskStackSize)

namespace YieldState

variable {η : Type} (A : HeapApi η) (taskExitAddr : ℕ) (K : Set ℕ)

/-- The stack pointer of the running code lies in its stack. -/
def OnStack (p : YieldState η) (esp : ℕ) : Prop :=
  p.sched.stateOf p.cpu ≠ .unused → esp ∈ taskStack K p.sched p.cpu

/-- `context_switch` has stored `esp`, and has taken up the stack of the current slot. -/
def resume (esp : ℕ) (p : YieldState η) : YieldState η :=
  { p with cpu := p.sched.current, left := Function.update p.left p.cpu esp }

/-- The running task executes a statement of `task_yield`. -/
def stmt (esp : ℕ) (p : YieldState η) : YieldState η :=
  let r := (p.point p.cpu).exec esp p.sched
  let q := { p with sched := r.2, point := Function.update p.point p.cpu r.1 }
  match p.point p.cpu with
  | .switch _ => q.resume esp
  | _ => q

/-- `scheduler_tick` interrupts the running task. -/
def tick (esp : ℕ) (p : YieldState η) : YieldState η :=
  let r := schedulerTick A esp p.sched p.heap
  let q := { p with sched := r.1, heap := r.2 }
  if r.1.current = p.sched.current then q else q.resume esp

/-- The running task calls `task_create`. -/
def create (name : List Char) (entry : ℕ) (p : YieldState η) : YieldState η :=
  let r := taskCreate A taskExitAddr name entry p.sched p.heap
  let q := { p with sched := r.2.1, heap := r.2.2 }
  if r.1 < 0 then q
  else
    { q with
      point := Function.update p.point r.1.toNat .outside
      left := Function.update p.left r.1.toNat (r.2.1.tasks r.1.toNat).esp }

/-- After `scheduler_init`. -/
def start (h : η) : YieldState η where
  sched := schedulerInit zeroed
  heap := h
  cpu := 0
  point _ := .outside
  left _ := 0

/-- Every suspended task's saved stack pointer is the one with which it was suspended or created,
and every saved stack pointer lies in its task's stack. -/
structure Safe (p : YieldState η) : Prop where
  own : ∀ i < maxTasks, p.sched.stateOf i ≠ .unused → i ≠ p.cpu → (p.sched.tasks i).esp = p.left i
  inStack : ∀ i, Owns p.sched i →
    (p.sched.tasks i).stackBase ≤ (p.sched.tasks i).esp ∧
      (p.sched.tasks i).esp < (p.sched.tasks i).stackBase + taskStackSize

/-- A tick now would switch from the stack of one task in the name of another. -/
def Misplaced (p : YieldState η) : Prop :=
  (p.point p.cpu).Ahead ∧ p.sched.quantumLeft ≤ 1 ∧ p.sched.pickNext ≠ p.sched.current

/-- No task is about to make a slot current that a tick now would reap. -/
def PicksKept (p : YieldState η) : Prop :=
  ∀ i, i = p.cpu ∨ p.sched.stateOf i ≠ .unused → ∀ n : ℕ, (p.point i).pick = some (n : ℤ) →
    ¬ p.sched.Reapable n

/-- A tick now does no harm. -/
def Harmless (p : YieldState η) : Prop := ¬ p.Misplaced ∧ p.PicksKept

/-- The running task is not in `task_yield`. -/
def AtRest (p : YieldState η) : Prop := p.point p.cpu = .outside

end YieldState

section Steps

variable {η : Type} (A : HeapApi η) (taskExitAddr : ℕ) (K : Set ℕ)

/-- What can happen: the running task, outside `task_yield`, calls an operation, which is one step,
or it calls `task_yield` and executes its statements; a tick comes in a state that satisfies `T`. -/
inductive YieldStep (T : YieldState η → Prop) : YieldState η → YieldState η → Prop
  | create {p : YieldState η} (name : List Char) (entry : ℕ) (hp : p.AtRest) :
      YieldStep T p (p.create A taskExitAddr name entry)
  | kill {p : YieldState η} (id : ℕ) (hp : p.AtRest) :
      YieldStep T p { p with sched := (taskKill id p.sched).2 }
  | exit {p : YieldState η} (hp : p.AtRest) (hc : p.cpu ≠ 0) :
      YieldStep T p { p with sched := taskExit p.sched }
  | call {p : YieldState η} (hp : p.AtRest) :
      YieldStep T p { p with point := Function.update p.point p.cpu .enter }
  | stmt {p : YieldState η} (esp : ℕ) (hp : ¬ p.AtRest) (he : p.OnStack K esp) :
      YieldStep T p (p.stmt esp)
  | tick {p : YieldState η} (esp : ℕ) (he : p.OnStack K esp) (ht : T p) :
      YieldStep T p (p.tick A esp)

/-- The states reached from `scheduler_init` with ticks in states that satisfy `T`. -/
def YieldReach (T : YieldState η → Prop) (h₀ : η) : YieldState η → Prop :=
  Reach (fun p => p = YieldState.start h₀) (YieldStep A taskExitAddr K T)

/-- The states reached from `p` when no tick comes. -/
def WithoutTicks (p : YieldState η) : YieldState η → Prop :=
  Reach (fun q => q = p) (YieldStep A taskExitAddr K fun _ => False)

end Steps

namespace YieldState

variable {η : Type} {p : YieldState η}

/-- `context_switch` leaves the task's stack. -/
theorem stmt_switch {prev : ℕ} (hc : p.point p.cpu = .switch prev) (esp : ℕ) : p.stmt esp =
    { sched := p.sched.setTask prev { p.sched.tasks prev with esp := esp }
      heap := p.heap
      cpu := p.sched.current
      point := Function.update p.point p.cpu .outside
      left := Function.update p.left p.cpu esp } := by
  unfold stmt
  rw [hc]
  rfl

/-- Any other statement stays on it. -/
theorem stmt_of_ne (hc : ∀ prev, p.point p.cpu ≠ .switch prev) (esp : ℕ) : p.stmt esp =
    { p with
      sched := ((p.point p.cpu).exec esp p.sched).2
      point := Function.update p.point p.cpu ((p.point p.cpu).exec esp p.sched).1 } := by
  unfold stmt
  split
  · exact absurd ‹_› (hc _)
  · rfl

end YieldState

/-! ## The statements make up `task_yield` -/

namespace YieldPoint

/-- The loop of `pick_next`, from a step on. -/
theorem exec_probe (esp : ℕ) (s : Sched) (m step : ℕ) (h : step + m = maxTasks + 1) :
    ∃ n, (fun q : YieldPoint × Sched => exec esp q.2 q.1)^[n] (probe step, s) =
      (guard (match ((List.range' step m).map fun step => (s.current + step) % maxTasks).find?
        fun i => s.stateOf i = .ready ∨ s.stateOf i = .running with
        | some i => (i : ℤ)
        | none => -1), s) := by
  induction m generalizing step with
  | zero =>
    refine ⟨1, ?_⟩
    have hlt : ¬ step ≤ maxTasks := by omega
    simp [exec, hlt]
  | succ m ih =>
    have hle : step ≤ maxTasks := by omega
    by_cases hi : s.stateOf ((s.current + step) % maxTasks) = .ready ∨
        s.stateOf ((s.current + step) % maxTasks) = .running
    · refine ⟨2, ?_⟩
      simp [exec, hle, hi, List.range'_succ]
    · obtain ⟨n, hn⟩ := ih (step + 1) (by omega)
      refine ⟨n + 2, ?_⟩
      simp only [Function.iterate_add_apply, List.range'_succ, List.map_cons]
      rw [List.find?_cons_of_neg (by simpa using hi), ← hn]
      simp [exec, hle, hi]

/-- **Uninterrupted, the statements of `task_yield` are `taskYield`.** -/
theorem exec_taskYield (esp : ℕ) (s : Sched) :
    ∃ n, (fun q : YieldPoint × Sched => exec esp q.2 q.1)^[n] (enter, s) =
      (outside, s.taskYield esp) := by
  cases he : s.enabled with
  | false => exact ⟨1, by simp [exec, taskYield, he]⟩
  | true =>
    obtain ⟨n, hn⟩ := exec_probe esp s maxTasks 1 rfl
    change _ = (guard s.pickNext, s) at hn
    have hyield : s.taskYield esp = switchTo s.pickNext esp s := by simp [taskYield, he]
    have hfirst : exec esp s enter = (probe 1, s) := by simp [exec, he]
    rw [hyield]
    by_cases hc : s.pickNext < 0 ∨ s.pickNext = s.current
    · refine ⟨1 + n + 1, ?_⟩
      rw [Function.iterate_add_apply, Function.iterate_one, hfirst, Function.iterate_add_apply, hn]
      simp [exec, switchTo, hc]
    · by_cases hr : s.stateOf s.current = .running
      · refine ⟨10 + n + 1, ?_⟩
        rw [Function.iterate_add_apply, Function.iterate_one, hfirst,
          Function.iterate_add_apply, hn]
        simp [exec, switchTo, hc, hr]
      · refine ⟨9 + n + 1, ?_⟩
        rw [Function.iterate_add_apply, Function.iterate_one, hfirst,
          Function.iterate_add_apply, hn]
        simp [exec, switchTo, hc, hr]

end YieldPoint

/-! ## The invariant -/

/-- The slot `next` can be made current by task `i`. -/
def Pickable (s : Sched) (i : ℕ) (next : ℤ) : Prop :=
  ∃ n : ℕ, next = n ∧ n < maxTasks ∧ n ≠ i ∧ s.stateOf n ≠ .unused

/-- What task `i`'s locals are. -/
def YieldPoint.Ok (s : Sched) (i : ℕ) : YieldPoint → Prop
  | .look _ j => j < maxTasks
  | .guard next => next = -1 ∨ ∃ n : ℕ, next = n ∧ n < maxTasks ∧ s.stateOf n ≠ .unused
  | .keep next => Pickable s i next
  | .inspect next prev | .demote next prev | .advance next prev => Pickable s i next ∧ prev = i
  | .promote prev | .slices prev | .switches prev | .quantum prev | .switch prev => prev = i
  | _ => True

theorem YieldPoint.Ok.mono {s t : Sched} {i : ℕ} {c : YieldPoint} (h : c.Ok s i)
    (hu : ∀ n : ℕ, c.pick = some (n : ℤ) → s.stateOf n ≠ .unused → t.stateOf n ≠ .unused) :
    c.Ok t i := by
  have hpick : ∀ {next : ℤ}, Pickable s i next → c.pick = some next → Pickable t i next := by
    rintro _ ⟨n, rfl, hn, hne, hun⟩ hc
    exact ⟨n, rfl, hn, hne, hu n hc hun⟩
  cases c with
  | guard next =>
    rcases h with h | ⟨n, rfl, hn, hun⟩
    · exact Or.inl h
    · exact Or.inr ⟨n, rfl, hn, hu n rfl hun⟩
  | keep next => exact hpick h rfl
  | inspect next prev | demote next prev | advance next prev => exact ⟨hpick h.1 rfl, h.2⟩
  | _ => exact h

/-- Saving a stack pointer changes no state. -/
theorem setTask_esp_stateOf (s : Sched) (i j esp : ℕ) :
    (s.setTask i { s.tasks i with esp := esp }).stateOf j = s.stateOf j := by
  rw [setTask_stateOf]
  split_ifs with hj
  · rw [hj]
    rfl
  · rfl

/-- The slots hold the same stacks and stack pointers, and the same slots are in use. -/
structure SameStacks (s t : Sched) : Prop where
  esp : ∀ i, (t.tasks i).esp = (s.tasks i).esp
  stackBase : ∀ i, (t.tasks i).stackBase = (s.tasks i).stackBase
  unused : ∀ i, t.stateOf i = .unused ↔ s.stateOf i = .unused

namespace SameStacks

variable {s t : Sched}

theorem refl (s : Sched) : SameStacks s s := ⟨fun _ => rfl, fun _ => rfl, fun _ => Iff.rfl⟩

theorem setState {i : ℕ} {st : TaskState} (hi : s.stateOf i ≠ .unused) (hst : st ≠ .unused) :
    SameStacks s (s.setState i st) where
  esp j := by rw [setState_tasks]
  stackBase j := by rw [setState_tasks]
  unused j := by
    rw [setState_stateOf]
    by_cases hj : j = i
    · simp [hj, hi, hst]
    · simp [hj]

/-- Counting a slice. -/
theorem setTask_slices (i n : ℕ) : SameStacks s (s.setTask i { s.tasks i with slices := n }) := by
  refine ⟨fun j => ?_, fun j => ?_, fun j => ?_⟩
  · rw [setTask_tasks]
    split_ifs with hj <;> simp [hj]
  · rw [setTask_tasks]
    split_ifs with hj <;> simp [hj]
  · rw [setTask_stateOf]
    split_ifs with hj
    · rw [hj]
      rfl
    · rfl

theorem owns (h : SameStacks s t) (i : ℕ) : Owns t i ↔ Owns s i := by
  exact and_congr_right fun _ => and_congr_right fun _ => not_congr (h.unused i)

theorem taskStack (h : SameStacks s t) (K : Set ℕ) (i : ℕ) : taskStack K t i = taskStack K s i := by
  unfold JarvisOS.taskStack
  rw [h.stackBase]

end SameStacks

/-- Task `i` has executed a statement of `task_yield` before `context_switch`, from `s`. -/
structure Executed (s : Sched) (i : ℕ) (r : YieldPoint × Sched) : Prop where
  slots : SameStacks s r.2
  enabled : r.2.enabled = s.enabled
  current_lt : r.2.current < maxTasks
  current_used : r.2.stateOf r.2.current ≠ .unused
  place : r.2.current = i ↔ ¬ r.1.Ahead
  ok : r.1.Ok r.2 i

/-- The statement has left the scheduler alone. -/
theorem Executed.same {s : Sched} {i : ℕ} {c : YieldPoint} (hlt : s.current < maxTasks)
    (hu : s.stateOf s.current ≠ .unused) (hplace : s.current = i ↔ ¬ c.Ahead) (hok : c.Ok s i) :
    Executed s i (c, s) :=
  ⟨.refl s, rfl, hlt, hu, hplace, hok⟩

/-- **What a statement of `task_yield` before `context_switch` does**, executed by task `i`. -/
theorem YieldPoint.exec_spec {s : Sched} {i : ℕ} {c : YieldPoint} (hok : c.Ok s i)
    (hc : ∀ prev, c ≠ .switch prev) (hlt : s.current < maxTasks)
    (hu : s.stateOf s.current ≠ .unused) (hplace : s.current = i ↔ ¬ c.Ahead) (esp : ℕ) :
    Executed s i (c.exec esp s) := by
  cases c with
  | outside => exact .same hlt hu hplace trivial
  | enter =>
    simp only [exec]
    split_ifs
    · exact .same hlt hu hplace trivial
    · exact .same hlt hu hplace trivial
  | probe step =>
    simp only [exec]
    split_ifs
    · exact .same hlt hu hplace (Nat.mod_lt _ (by decide))
    · exact .same hlt hu hplace (Or.inl rfl)
  | look step j =>
    simp only [exec]
    split_ifs with hj
    · have hused : s.stateOf j ≠ .unused := by
        rcases hj with hj | hj <;> simp [hj]
      exact .same hlt hu hplace (Or.inr ⟨j, rfl, hok, hused⟩)
    · exact .same hlt hu hplace trivial
  | guard next =>
    simp only [exec]
    split_ifs with hn
    · exact .same hlt hu hplace trivial
    · rcases hok with h | ⟨n, rfl, hn', hun⟩
      · exact absurd (Or.inl (by omega)) hn
      · have hne : n ≠ i := by
          rintro rfl
          exact hn (Or.inr (by rw [hplace.2 id]))
        exact .same hlt hu hplace ⟨n, rfl, hn', hne, hun⟩
  | keep next => exact .same hlt hu hplace ⟨hok, hplace.2 id⟩
  | inspect next prev =>
    simp only [exec]
    split_ifs
    · exact .same hlt hu hplace hok
    · exact .same hlt hu hplace hok
  | demote next prev =>
    have hprev : s.stateOf prev ≠ .unused := by rwa [hok.2, ← hplace.2 id]
    have hst := SameStacks.setState hprev (show TaskState.ready ≠ .unused by decide)
    have hadvance : (advance next prev).Ok s i := hok
    exact ⟨hst, rfl, hlt, mt (hst.unused _).1 hu, hplace,
      hadvance.mono fun n _ => mt (hst.unused n).1⟩
  | advance next prev =>
    obtain ⟨⟨n, rfl, hn, hne, hun⟩, hprev⟩ := hok
    have hst : SameStacks s { s with current := n } :=
      ⟨fun _ => rfl, fun _ => rfl, fun _ => Iff.rfl⟩
    exact ⟨hst, rfl, hn, hun, ⟨fun e => absurd e hne, fun hf => absurd trivial hf⟩, hprev⟩
  | promote prev =>
    have hst := SameStacks.setState hu (show TaskState.running ≠ .unused by decide)
    exact ⟨hst, rfl, hlt, mt (hst.unused _).1 hu, hplace, hok⟩
  | slices prev =>
    have hst := SameStacks.setTask_slices (s := s) s.current (u32 ((s.tasks s.current).slices + 1))
    exact ⟨hst, rfl, hlt, mt (hst.unused _).1 hu, hplace, hok⟩
  | switches prev | quantum prev =>
    exact ⟨⟨fun _ => rfl, fun _ => rfl, fun _ => Iff.rfl⟩, rfl, hlt, hu, hplace, hok⟩
  | switch prev => exact absurd rfl (hc prev)

section Invariant

variable {η : Type} {A : HeapApi η} {I : η → Prop} {live : η → Set (ℕ × ℕ)} {taskExitAddr : ℕ}
  {K : Set ℕ} {L₀ : Set (ℕ × ℕ)}

/-- The saved stack pointers of a table, where the processor is on the stack of `cpu`. -/
structure Saved (K : Set ℕ) (left : ℕ → ℕ) (cpu : ℕ) (s : Sched) : Prop where
  own : ∀ i < maxTasks, s.stateOf i ≠ .unused → i ≠ cpu →
    (s.tasks i).esp = left i ∧ (s.tasks i).esp ∈ taskStack K s i
  stack : ∀ i, Owns s i → (s.tasks i).esp ∈ taskStack K s i

theorem Saved.congr {left : ℕ → ℕ} {cpu : ℕ} {s t : Sched} (h : Saved K left cpu s)
    (hst : SameStacks s t) : Saved K left cpu t where
  own i hi hu hne := by
    rw [hst.esp, hst.taskStack]
    exact h.own i hi (mt (hst.unused i).2 hu) hne
  stack i hi := by
    rw [hst.esp, hst.taskStack]
    exact h.stack i ((hst.owns i).1 hi)

/-- The processor leaves its task, whose slot gets `esp`. -/
theorem Saved.store {left : ℕ → ℕ} {cpu esp : ℕ} {s t : Sched} (h : Saved K left cpu s)
    (hesp : ∀ i, (t.tasks i).esp = if i = cpu then esp else (s.tasks i).esp)
    (hbase : ∀ i, (t.tasks i).stackBase = (s.tasks i).stackBase)
    (hunused : ∀ i, t.stateOf i = .unused ↔ s.stateOf i = .unused)
    (hon : s.stateOf cpu ≠ .unused → esp ∈ taskStack K s cpu) (next : ℕ) :
    Saved K (Function.update left cpu esp) next t := by
  have hstack : ∀ i, taskStack K t i = taskStack K s i := by
    intro i
    unfold taskStack
    rw [hbase]
  constructor
  case own =>
    intro i hi hui _
    rw [hesp, hstack]
    simp only [Function.update_apply]
    split_ifs with hic
    · rw [hic] at hui ⊢
      exact ⟨rfl, hon (mt (hunused _).2 hui)⟩
    · exact h.own i hi (mt (hunused i).2 hui) hic
  case stack =>
    intro i hi
    have hui : s.stateOf i ≠ .unused := mt (hunused i).2 hi.2.2
    rw [hesp, hstack]
    split_ifs with hic
    · rw [hic] at hui ⊢
      exact hon hui
    · exact h.stack i ⟨hi.1, hi.2.1, hui⟩

/-- A task is created in another slot, with its stack pointer in its stack. -/
theorem Saved.insert {left : ℕ → ℕ} {cpu slot sp stack : ℕ} {name : List Char} {s : Sched}
    (h : Saved K left cpu s) (hslot : 1 ≤ slot) (hlo : stack ≤ sp)
      (hhi : sp < stack + taskStackSize) :
    Saved K (Function.update left slot sp) cpu (s.setTask slot (created slot sp stack name)) := by
  have hnew : sp ∈ taskStack K (s.setTask slot (created slot sp stack name)) slot := by
    unfold taskStack
    rw [setTask_tasks_self, if_neg (by omega)]
    exact ⟨hlo, hhi⟩
  have hold : ∀ i, i ≠ slot →
      taskStack K (s.setTask slot (created slot sp stack name)) i = taskStack K s i := by
    intro i hi
    unfold taskStack
    rw [setTask_tasks_of_ne s _ hi]
  constructor
  case own =>
    intro i hi hu hic
    simp only [Function.update_apply]
    split_ifs with his
    · rw [his, setTask_tasks_self]
      exact ⟨rfl, hnew⟩
    · rw [setTask_stateOf, if_neg his] at hu
      rw [hold i his, setTask_tasks_of_ne s _ his]
      exact h.own i hi hu hic
  case stack =>
    intro i hi
    by_cases his : i = slot
    · rw [his, setTask_tasks_self]
      exact hnew
    · have hu := hi.2.2
      rw [setTask_stateOf, if_neg his] at hu
      rw [hold i his, setTask_tasks_of_ne s _ his]
      exact h.stack i ⟨hi.1, hi.2.1, hu⟩

/-- **The invariant**: the processor is on the stack of the current slot unless `current` is ahead,
no suspended task is left with `current` ahead, and the saved stack pointers are the tasks' own. -/
structure YieldInv (I : η → Prop) (live : η → Set (ℕ × ℕ)) (L₀ : Set (ℕ × ℕ)) (K : Set ℕ)
    (p : YieldState η) : Prop where
  owned : StackInv I live L₀ p.sched p.heap
  enabled : p.sched.enabled = true
  cpu_lt : p.cpu < maxTasks
  current_lt : p.sched.current < maxTasks
  current_used : p.sched.stateOf p.sched.current ≠ .unused
  place : p.sched.current = p.cpu ↔ ¬ (p.point p.cpu).Ahead
  points : ∀ i, i = p.cpu ∨ p.sched.stateOf i ≠ .unused → (p.point i).Ok p.sched i
  behind : ∀ i, i ≠ p.cpu → p.sched.stateOf i ≠ .unused → ¬ (p.point i).Ahead
  saved : Saved K p.left p.cpu p.sched

namespace YieldInv

variable {p : YieldState η}

/-- The invariant says that the state is safe. -/
theorem safe (h : YieldInv I live L₀ K p) : p.Safe where
  own i hi hu hne := (h.saved.own i hi hu hne).1
  inStack i hi := by
    have hmem := h.saved.stack i hi
    have hne : i ≠ 0 := by
      have := hi.1
      omega
    rw [taskStack, if_neg hne] at hmem
    exact hmem

/-- The running task goes on in `task_yield`, and the slots keep their stacks. -/
theorem advance (h : YieldInv I live L₀ K p) {t : Sched} {c : YieldPoint}
    (hst : SameStacks p.sched t) (he : t.enabled = true) (hlt : t.current < maxTasks)
    (hu : t.stateOf t.current ≠ .unused) (hplace : t.current = p.cpu ↔ ¬ c.Ahead)
    (hc : c.Ok t p.cpu) :
    YieldInv I live L₀ K { p with sched := t, point := Function.update p.point p.cpu c } where
  owned := h.owned.congr hst.owns fun i _ => hst.stackBase i
  enabled := he
  cpu_lt := h.cpu_lt
  current_lt := hlt
  current_used := hu
  place := by simpa only [Function.update_self] using hplace
  points i hi := by
    simp only [Function.update_apply]
    split_ifs with hic
    · rw [hic]
      exact hc
    · apply (h.points i (hi.imp_right (mt (hst.unused i).2))).mono
      intro n _ hn
      exact mt (hst.unused n).1 hn
  behind i hi hui := by
    simp only [Function.update_of_ne hi]
    exact h.behind i hi (mt (hst.unused i).2 hui)
  saved := h.saved.congr hst

/-- The processor leaves its task, whose slot gets `esp`, and takes up the stack of another slot. -/
theorem resume (h : YieldInv I live L₀ K p) {t : Sched} {c : YieldPoint} {esp next : ℕ}
    (hesp : ∀ i, (t.tasks i).esp = if i = p.cpu then esp else (p.sched.tasks i).esp)
    (hbase : ∀ i, (t.tasks i).stackBase = (p.sched.tasks i).stackBase)
    (hunused : ∀ i, t.stateOf i = .unused ↔ p.sched.stateOf i = .unused)
    (he : t.enabled = true) (hcur : t.current = next) (hlt : next < maxTasks)
    (hu : p.sched.stateOf next ≠ .unused) (hne : next ≠ p.cpu) (hc : c.Ok t p.cpu)
    (hahead : ¬ c.Ahead) (hon : p.OnStack K esp) :
    YieldInv I live L₀ K
      { sched := t
        heap := p.heap
        cpu := next
        point := Function.update p.point p.cpu c
        left := Function.update p.left p.cpu esp } := by
  have howns : ∀ i, Owns t i ↔ Owns p.sched i := fun i =>
    and_congr_right fun _ => and_congr_right fun _ => not_congr (hunused i)
  constructor
  case owned => exact h.owned.congr howns fun i _ => hbase i
  case enabled => exact he
  case cpu_lt => exact hlt
  case current_lt =>
    rw [hcur]
    exact hlt
  case current_used =>
    rw [hcur]
    exact mt (hunused next).1 hu
  case place =>
    simp only [Function.update_of_ne hne]
    exact ⟨fun _ => h.behind next hne hu, fun _ => hcur⟩
  case points =>
    intro i hi
    simp only [Function.update_apply]
    split_ifs with hic
    · rw [hic]
      exact hc
    · have hui : p.sched.stateOf i ≠ .unused := by
        rcases hi with rfl | hi
        · exact hu
        · exact mt (hunused i).2 hi
      apply (h.points i (Or.inr hui)).mono
      intro n _ hn
      exact mt (hunused n).1 hn
  case behind =>
    intro i _ hui
    simp only [Function.update_apply]
    split_ifs with hic
    · exact hahead
    · exact h.behind i hic (mt (hunused i).2 hui)
  case saved => exact h.saved.store hesp hbase hunused hon next

/-- **A statement of `task_yield` keeps the invariant.** -/
theorem stmt (h : YieldInv I live L₀ K p) {esp : ℕ} (hon : p.OnStack K esp) :
    YieldInv I live L₀ K (p.stmt esp) := by
  have hok := h.points p.cpu (Or.inl rfl)
  have hplace := h.place
  by_cases hc : ∃ prev, p.point p.cpu = .switch prev
  · obtain ⟨prev, hc⟩ := hc
    rw [hc] at hok hplace
    obtain rfl : prev = p.cpu := hok
    rw [YieldState.stmt_switch hc]
    refine h.resume ?_ ?_ ?_ h.enabled rfl h.current_lt h.current_used (fun e => hplace.1 e trivial)
      trivial id hon
    · intro i
      rw [setTask_tasks]
      split_ifs <;> rfl
    · intro i
      rw [setTask_tasks]
      split_ifs with hi
      · rw [hi]
      · rfl
    · intro i
      rw [setTask_esp_stateOf]
  · have hne : ∀ prev, p.point p.cpu ≠ .switch prev := fun prev e => hc ⟨prev, e⟩
    have hexec := YieldPoint.exec_spec hok hne h.current_lt h.current_used hplace esp
    rw [YieldState.stmt_of_ne hne]
    exact h.advance hexec.slots (hexec.enabled.trans h.enabled) hexec.current_lt hexec.current_used
      hexec.place hexec.ok

/-! ## The tick -/

/-- `reap` keeps the invariant when it spares the slots that are about to be made current. -/
theorem reap (hA : HeapSpec A I live) (h : YieldInv I live L₀ K p) (hpick : p.PicksKept) :
    YieldInv I live L₀ K
      { p with sched := (reap A p.sched p.heap).1, heap := (Sched.reap A p.sched p.heap).2 } := by
  have howned := h.owned.reap hA
  have hcur := reap_current A p.sched p.heap
  have henabled := (reap_enabled A p.sched p.heap).trans h.enabled
  -- a slot in use after `reap` is as it was before
  have hused : ∀ j, (Sched.reap A p.sched p.heap).1.stateOf j ≠ .unused →
      p.sched.stateOf j ≠ .unused ∧
        (Sched.reap A p.sched p.heap).1.tasks j = p.sched.tasks j := by
    intro j hj
    rw [reap_stateOf] at hj
    rw [reap_tasks]
    split_ifs at hj ⊢
    · exact absurd rfl hj
    · exact ⟨hj, rfl⟩
  have hkept : ∀ j, p.sched.stateOf j ≠ .unused → ¬ p.sched.Reapable j →
      (Sched.reap A p.sched p.heap).1.stateOf j ≠ .unused := by
    intro j hj hr
    rw [reap_stateOf_of_not _ hr]
    exact hj
  generalize Sched.reap A p.sched p.heap = r at howned hcur henabled hused hkept
  have hsaved : ∀ j, r.1.stateOf j ≠ .unused → (r.1.tasks j).esp = (p.sched.tasks j).esp ∧
      taskStack K r.1 j = taskStack K p.sched j := by
    intro j hj
    unfold taskStack
    rw [(hused j hj).2]
    exact ⟨rfl, rfl⟩
  constructor
  case owned => exact howned
  case enabled => exact henabled
  case cpu_lt => exact h.cpu_lt
  case current_lt =>
    rw [hcur]
    exact h.current_lt
  case current_used =>
    rw [hcur]
    exact hkept _ h.current_used fun hr => hr.2 rfl
  case place =>
    rw [hcur]
    exact h.place
  case points =>
    intro i hi
    have hi' := hi.imp_right fun hu => (hused i hu).1
    apply (h.points i hi').mono
    intro n hn hu
    exact hkept n hu (hpick i hi' n hn)
  case behind => exact fun i hi hu => h.behind i hi (hused i hu).1
  case saved =>
    constructor
    · intro i hi hu hne
      rw [(hsaved i hu).1, (hsaved i hu).2]
      exact h.saved.own i hi (hused i hu).1 hne
    · intro i hi
      rw [(hsaved i hi.2.2).1, (hsaved i hi.2.2).2]
      exact h.saved.stack i ⟨hi.1, hi.2.1, (hused i hi.2.2).1⟩

end YieldInv

/-- What can run does not depend on the dead slots. -/
theorem pickNext_reap (s : Sched) (hp : η) : (reap A s hp).1.pickNext = s.pickNext := by
  have hrun : ∀ i, ((reap A s hp).1.stateOf i = .ready ∨ (reap A s hp).1.stateOf i = .running) ↔
      (s.stateOf i = .ready ∨ s.stateOf i = .running) := by
    intro i
    rw [reap_stateOf]
    split_ifs with hc
    · simp [hc.2.1]
    · rfl
  unfold pickNext
  simp only [hrun, reap_current]

variable {p : YieldState η}

/-- **What a tick does**: after `reap` it only counts, or it switches to the slot that `pick_next`
chooses. -/
theorem tick_cases (he : p.sched.enabled = true) (hlt : p.sched.current < maxTasks) (esp : ℕ) :
    (∃ q, p.tick A esp =
      { p with
        sched := { (reap A p.sched p.heap).1 with quantumLeft := q }
        heap := (reap A p.sched p.heap).2 }) ∧
      (p.sched.quantumLeft > 1 ∨ p.sched.pickNext = -1 ∨ p.sched.pickNext = p.sched.current) ∨
    ∃ n < maxTasks, n ≠ p.sched.current ∧ p.sched.quantumLeft ≤ 1 ∧ p.sched.pickNext = n ∧
      (p.sched.stateOf n = .ready ∨ p.sched.stateOf n = .running) ∧
      p.tick A esp =
        { p with
          sched := (reap A p.sched p.heap).1.switched n esp
          heap := (reap A p.sched p.heap).2
          cpu := n
          left := Function.update p.left p.cpu esp } := by
  have hcur := reap_current A p.sched p.heap
  have hquant := reap_quantumLeft A p.sched p.heap
  have hpick := pickNext_reap (A := A) p.sched p.heap
  have hchosen := pickNext_cases p.sched hlt
  unfold YieldState.tick
  rw [schedulerTick_of_enabled A he, hpick]
  generalize reap A p.sched p.heap = r at hcur hquant
  obtain ⟨t, hp⟩ := r
  simp only at hcur hquant
  by_cases hq : t.quantumLeft > 1
  · refine Or.inl ⟨⟨t.quantumLeft - 1, ?_⟩, Or.inl (hquant ▸ hq)⟩
    simp [hq, hcur]
  · rcases hchosen with ⟨hnone, -⟩ | ⟨n, hn, hpn, hrun⟩
    · refine Or.inl ⟨⟨t.quantumLeft, ?_⟩, Or.inr (Or.inl hnone)⟩
      have hswitch : switchTo (-1) esp t = t := if_pos (Or.inl (by decide))
      simp only [hq, if_false, hnone, hswitch]
      exact if_pos hcur
    · by_cases hne : n = p.sched.current
      · refine Or.inl ⟨⟨t.quantumLeft, ?_⟩, Or.inr (Or.inr (by rw [hpn, hne]))⟩
        simp [hq, hpn, hne, ← hcur, switchTo_self]
      · refine Or.inr ⟨n, hn, hne, by omega, hpn, hrun, ?_⟩
        have hswitch := switchTo_of_ne t esp (by rwa [hcur] : n ≠ t.current)
        have hnext : (t.switched n esp).current ≠ p.sched.current := hne
        simp only [hq, if_false, hpn, hswitch, if_neg hnext]
        rfl

namespace YieldInv

/-- **A harmless tick keeps the invariant.** -/
theorem tick (hA : HeapSpec A I live) (h : YieldInv I live L₀ K p) (ht : p.Harmless) {esp : ℕ}
    (hon : p.OnStack K esp) : YieldInv I live L₀ K (p.tick A esp) := by
  have hreap := h.reap hA ht.2
  have hcur := reap_current A p.sched p.heap
  have htask : (Sched.reap A p.sched p.heap).1.tasks p.sched.current =
      p.sched.tasks p.sched.current := by
    rw [reap_tasks, if_neg fun hr => hr.2.2 rfl]
  have hlive : ∀ n, p.sched.stateOf n = .ready ∨ p.sched.stateOf n = .running →
      (Sched.reap A p.sched p.heap).1.stateOf n = p.sched.stateOf n := by
    intro n hn
    apply reap_stateOf_of_not
    apply not_reapable_of_ne
    rcases hn with hn | hn <;> simp [hn]
  rcases tick_cases (A := A) h.enabled h.current_lt esp with ⟨⟨q, e⟩, -⟩ | ⟨n, hn, hne, hq, hpick,
    hrun, e⟩
  · rw [e]
    generalize Sched.reap A p.sched p.heap = r at hreap
    exact ⟨⟨hreap.owned.heap, hreap.owned.live_eq, hreap.owned.fresh, hreap.owned.distinct⟩,
      hreap.enabled, hreap.cpu_lt, hreap.current_lt, hreap.current_used, hreap.place, hreap.points,
      hreap.behind, hreap.saved.own, hreap.saved.stack⟩
  · -- `current` is not ahead, since the tick is not misplaced
    have hahead : ¬ (p.point p.cpu).Ahead := by
      intro ha
      refine ht.1 ⟨ha, hq, ?_⟩
      rw [hpick]
      exact fun e => hne (Int.ofNat.inj e)
    have hcpu : p.sched.current = p.cpu := h.place.2 hahead
    have hn' := hlive n hrun
    have hok := hreap.points p.cpu (Or.inl rfl)
    rw [e]
    generalize Sched.reap A p.sched p.heap = r at hreap hcur htask hn' hok
    have hstate : ∀ i, (r.1.switched n esp).stateOf i = .unused ↔ r.1.stateOf i = .unused := by
      intro i
      rw [switched_stateOf]
      split_ifs with h1 h2
      · rw [h1, hn']
        rcases hrun with hr | hr <;> simp [hr]
      · simp [h2.2]
      · rfl
    have hused : r.1.stateOf n ≠ .unused := by
      rw [hn']
      rcases hrun with hr | hr <;> simp [hr]
    have hon' : ({ p with sched := r.1, heap := r.2 } : YieldState η).OnStack K esp := by
      rw [hcpu] at htask
      intro hu
      unfold stateOf at hu
      simp only [htask] at hu
      have := hon hu
      unfold taskStack at this ⊢
      simp only [htask]
      exact this
    have hnext := hreap.resume (t := r.1.switched n esp) (c := p.point p.cpu)
      (fun i => by simp only [switched, hcur, hcpu]) (fun i => rfl) hstate hreap.enabled rfl
        hn hused
      (fun e => hne (e.trans hcpu.symm)) (hok.mono fun m _ => mt (hstate m).1) hahead hon'
    simp only [Function.update_eq_self] at hnext
    exact hnext

/-! ## The operations -/

/-- The stack pointer after pushing. -/
theorem foldl_push_fst (ws : List ℕ) {sp : ℕ} (h : η) (hle : 4 * ws.length ≤ sp)
    (hlt : sp < 2 ^ 32) :
    (ws.foldl (fun p v => push A v p) (sp, h)).1 = sp - 4 * ws.length := by
  induction ws generalizing sp h with
  | nil => rfl
  | cons w ws ih =>
    rw [List.length_cons] at hle ⊢
    have hsub : sub32 sp 4 = sp - 4 := sub32_of_le (by omega) hlt
    rw [List.foldl_cons, push, hsub, ih _ (by omega) (by omega)]
    omega

/-- A new task is inserted in a free slot, with its stack pointer in its stack. -/
theorem insert (h : YieldInv I live L₀ K p) (hp : p.AtRest) {slot sp stack : ℕ} {name : List Char}
    {hp' : η} (hslot : p.sched.findSlot = some slot)
    (howned : StackInv I live L₀ (p.sched.setTask slot (created slot sp stack name)) hp')
    (hlo : stack ≤ sp) (hhi : sp < stack + taskStackSize) :
    YieldInv I live L₀ K
      { p with
        sched := p.sched.setTask slot (created slot sp stack name)
        heap := hp'
        point := Function.update p.point slot .outside
        left := Function.update p.left slot sp } := by
  obtain ⟨h1, h2, h3⟩ := findSlot_some hslot
  have hcpu : p.sched.current = p.cpu := h.place.2 (by rw [hp]; exact id)
  have hcur : p.sched.current ≠ slot := by
    rintro rfl
    exact h.current_used h3
  have hne : p.cpu ≠ slot := hcpu ▸ hcur
  -- the other slots are as before
  have hstate : ∀ i, i ≠ slot →
      (p.sched.setTask slot (created slot sp stack name)).stateOf i = p.sched.stateOf i := by
    intro i hi
    rw [setTask_stateOf, if_neg hi]
  constructor
  case owned => exact howned
  case enabled => exact h.enabled
  case cpu_lt => exact h.cpu_lt
  case current_lt => exact h.current_lt
  case current_used =>
    rw [setTask_current, hstate _ hcur]
    exact h.current_used
  case place =>
    simp only [Function.update_of_ne hne]
    exact h.place
  case points =>
    intro i hi
    simp only [Function.update_apply]
    split_ifs with his
    · trivial
    · rw [hstate i his] at hi
      apply (h.points i hi).mono
      intro n _ hn
      have hns : n ≠ slot := by
        rintro rfl
        exact hn h3
      rw [hstate n hns]
      exact hn
  case behind =>
    intro i hi hu
    simp only [Function.update_apply]
    split_ifs with his
    · exact id
    · rw [hstate i his] at hu
      exact h.behind i hi hu
  case saved => exact h.saved.insert h1 hlo hhi

theorem create (hA : HeapSpec A I live) (h : YieldInv I live L₀ K p) (hp : p.AtRest)
    (name : List Char) (entry : ℕ) :
    YieldInv I live L₀ K (p.create A taskExitAddr name entry) := by
  have howned := (h.owned.taskCreate hA taskExitAddr name entry).1
  unfold YieldState.create
  rcases taskCreate_cases A taskExitAddr name entry p.sched p.heap with
    ⟨-, e⟩ | ⟨-, e⟩ | ⟨slot, hslot, hz, e⟩
  · rw [e] at howned ⊢
    exact h
  · rw [e] at howned ⊢
    exact { h with owned := howned }
  · rw [e] at howned ⊢
    have hbound := hA.bounded _ (hA.kmalloc_inv p.heap h.owned.heap) _
      (hA.mem_live_of_granted h.owned.heap hz)
    simp only at hbound
    generalize (A.kmalloc taskStackSize p.heap).1 = stack at hbound howned
    have hlen : (initialFrame taskExitAddr entry).length = 11 := rfl
    have hsp : (pushFrame A taskExitAddr entry stack (A.kmalloc taskStackSize p.heap).2).1 =
        stack + taskStackSize - 44 := by
      unfold pushFrame
      rw [u32_of_lt hbound, foldl_push_fst _ _ (by rw [hlen]; simp only [taskStackSize]; omega)
        hbound, hlen]
    have hneg : ¬ (slot : ℤ) < 0 := by omega
    simp only [hneg, if_false, Int.toNat_natCast, setTask_tasks_self]
    refine h.insert hp hslot howned ?_ ?_
    · rw [hsp]
      simp only [taskStackSize]
      omega
    · rw [hsp]
      simp only [taskStackSize]
      omega

/-- Changing the state of a slot in use. -/
theorem setState (h : YieldInv I live L₀ K p) {i : ℕ} {st : TaskState}
    (hi : p.sched.stateOf i ≠ .unused) (hst : st ≠ .unused) :
    YieldInv I live L₀ K { p with sched := p.sched.setState i st } := by
  have hsame := SameStacks.setState hi hst
  have hnext := h.advance (t := p.sched.setState i st) (c := p.point p.cpu) hsame h.enabled
    h.current_lt (mt (hsame.unused _).1 h.current_used) h.place
    ((h.points p.cpu (Or.inl rfl)).mono fun n _ => mt (hsame.unused n).1)
  rw [Function.update_eq_self] at hnext
  exact hnext

/-- **Every step keeps the invariant.** -/
theorem step (hA : HeapSpec A I live) {T : YieldState η → Prop} {q : YieldState η}
    (h : YieldInv I live L₀ K p) (hT : T p → p.Harmless) (hs : YieldStep A taskExitAddr K T p q) :
    YieldInv I live L₀ K q := by
  cases hs with
  | create name entry hp => exact h.create hA hp name entry
  | kill id hp =>
    unfold taskKill
    split_ifs with h1 h2
    · exact h
    · exact h
    · exact h.setState h2 (by decide)
  | exit hp hc => exact h.setState h.current_used (by decide)
  | call hp =>
    have hcpu : p.sched.current = p.cpu := h.place.2 (by rw [hp]; exact id)
    exact h.advance (SameStacks.refl _) h.enabled h.current_lt h.current_used
      ⟨fun _ => id, fun _ => hcpu⟩ trivial
  | stmt esp hp he => exact h.stmt he
  | tick esp he ht => exact h.tick hA (hT ht) he

/-- The invariant holds after `scheduler_init`. -/
theorem start {h₀ : η} (hI : I h₀) : YieldInv I live (live h₀) K (YieldState.start h₀) := by
  have hunused : ∀ i, 1 ≤ i → (schedulerInit zeroed).stateOf i = .unused :=
    fun _ => schedulerInit_unused
  have hkernel : (schedulerInit zeroed).stateOf 0 = .running := schedulerInit_stateOf 0
  constructor
  case owned => exact StackInv.start hI rfl
  case enabled => rfl
  case cpu_lt => exact Nat.zero_lt_succ 7
  case current_lt => exact Nat.zero_lt_succ 7
  case current_used =>
    intro hu
    cases hkernel.symm.trans hu
  case place => exact ⟨fun _ => id, fun _ => rfl⟩
  case points => exact fun i _ => trivial
  case behind => exact fun i _ _ => id
  case saved =>
    constructor
    · intro i _ hu hne
      exact absurd (hunused i (Nat.pos_of_ne_zero hne)) hu
    · intro i hi
      exact absurd (hunused i hi.1) hi.2.2

end YieldInv

/-- **Safety over runs**: where every tick is harmless, every suspended task's saved stack pointer
is its own, and every saved stack pointer lies in its task's stack. -/
theorem yield_safe (hA : HeapSpec A I live) {h₀ : η} (hI : I h₀)
    (h : YieldReach A taskExitAddr K YieldState.Harmless h₀ p) : p.Safe := by
  have hinv : YieldInv I live (live h₀) K p := by
    refine Reach.invariant (I := YieldInv I live (live h₀) K) h ?_ ?_
    · rintro q rfl
      exact YieldInv.start hI
    · intro q r _ hq hs
      exact hq.step hA id hs
  exact hinv.safe

/-! ## One tick -/

theorem Sched.Runnable.used {s : Sched} {i : ℕ} (h : Runnable s i) : s.stateOf i ≠ .unused := by
  rcases h with h | h <;> simp [h]

/-- No other task is in `task_yield`, and what the running task has picked can still run. -/
structure Alone (p : YieldState η) : Prop where
  suspended : ∀ i, i ≠ p.cpu → p.point i = .outside
  pick : ∀ n : ℕ, (p.point p.cpu).pick = some (n : ℤ) → Runnable p.sched n
  current : (p.point p.cpu).Ahead → Runnable p.sched p.sched.current
  used : p.sched.stateOf p.cpu ≠ .unused

namespace YieldPoint

variable {s : Sched} {i : ℕ} {c : YieldPoint}

theorem ne_pick_of_none (h : c.pick = none) (n : ℕ) : c.pick ≠ some (n : ℤ) := by
  rw [h]
  nofun

/-- What a statement has picked can run. -/
theorem exec_pick (hpick : ∀ n : ℕ, c.pick = some (n : ℤ) → Runnable s n) (esp : ℕ) {n : ℕ}
    (hn : (c.exec esp s).1.pick = some (n : ℤ)) : Runnable (c.exec esp s).2 n := by
  cases c with
  | outside | keep next => exact hpick n hn
  | enter =>
    simp only [exec] at hn
    split_ifs at hn <;> exact absurd hn (ne_pick_of_none rfl n)
  | probe step =>
    simp only [exec] at hn
    split_ifs at hn
    · exact absurd hn (ne_pick_of_none rfl n)
    · have := Option.some.inj hn
      omega
  | look step j =>
    simp only [exec] at hn
    split_ifs at hn with hj
    · rw [← Int.ofNat.inj (Option.some.inj hn)]
      exact hj
    · exact absurd hn (ne_pick_of_none rfl n)
  | guard next =>
    simp only [exec] at hn
    split_ifs at hn
    · exact absurd hn (ne_pick_of_none rfl n)
    · exact hpick n hn
  | inspect next prev =>
    simp only [exec] at hn
    split_ifs at hn <;> exact hpick n hn
  | demote next prev =>
    simp only [exec, Runnable, setState_stateOf]
    split_ifs
    · exact Or.inl rfl
    · exact hpick n hn
  | advance | promote | slices | switches | quantum | switch => cases hn

/-- Once `current` is ahead, it can run. -/
theorem exec_ahead (hok : c.Ok s i) (hpick : ∀ n : ℕ, c.pick = some (n : ℤ) → Runnable s n)
    (hcur : c.Ahead → Runnable s s.current) (esp : ℕ) (ha : (c.exec esp s).1.Ahead) :
    Runnable (c.exec esp s).2 (c.exec esp s).2.current := by
  cases c with
  | outside | keep | demote | switch => exact ha.elim
  | enter | probe | look | guard | inspect =>
    simp only [exec] at ha
    split_ifs at ha <;> exact ha.elim
  | advance next prev =>
    obtain ⟨⟨n, rfl, -⟩, -⟩ := hok
    exact hpick n rfl
  | promote prev =>
    refine Or.inr ?_
    simp only [exec, setState_current, setState_stateOf, if_true]
  | slices prev =>
    simp only [exec, Runnable, setTask_current, setTask_stateOf, if_true]
    exact hcur trivial
  | switches prev | quantum prev => exact hcur trivial

end YieldPoint

namespace Alone

/-- Nobody is in `task_yield`. -/
theorem of_outside (hpoint : ∀ i, p.point i = .outside) (hu : p.sched.stateOf p.cpu ≠ .unused) :
    Alone p := by
  refine ⟨fun i _ => hpoint i, fun n hn => ?_, fun ha => ?_, hu⟩
  · rw [hpoint] at hn
    cases hn
  · rw [hpoint] at ha
    exact ha.elim

theorem outside (h : Alone p) (hp : p.AtRest) (i : ℕ) : p.point i = .outside := by
  by_cases hi : i = p.cpu
  · rw [hi]
    exact hp
  · exact h.suspended i hi

theorem picksKept (h : Alone p) : p.PicksKept := by
  intro i _ n hn hr
  by_cases hic : i = p.cpu
  · rw [hic] at hn
    rcases h.pick n hn with hrun | hrun
    · cases hr.1.symm.trans hrun
    · cases hr.1.symm.trans hrun
  · rw [h.suspended i hic] at hn
    cases hn

/-- A tick outside `task_yield` is harmless. -/
theorem harmless (h : Alone p) (hp : p.AtRest) : p.Harmless := by
  refine ⟨?_, h.picksKept⟩
  rintro ⟨hahead, -⟩
  rw [hp] at hahead
  exact hahead

theorem stmt (h : Alone p) (hinv : YieldInv I live L₀ K p) (esp : ℕ) : Alone (p.stmt esp) := by
  have hok := hinv.points p.cpu (Or.inl rfl)
  by_cases hc : ∃ prev, p.point p.cpu = .switch prev
  · obtain ⟨prev, hc⟩ := hc
    have hcur := h.current (by rw [hc]; trivial)
    have hne : p.sched.current ≠ p.cpu := by
      intro e
      have := hinv.place.1 e
      rw [hc] at this
      exact this trivial
    have hpoint : ∀ i, Function.update p.point p.cpu .outside i = .outside := by
      intro i
      rw [Function.update_apply]
      split_ifs with hi
      · rfl
      · exact h.suspended i hi
    rw [YieldState.stmt_switch hc]
    apply of_outside hpoint
    rw [setTask_esp_stateOf]
    exact hcur.used
  · have hswitch : ∀ prev, p.point p.cpu ≠ .switch prev := fun prev e => hc ⟨prev, e⟩
    have hexec := YieldPoint.exec_spec hok hswitch hinv.current_lt hinv.current_used hinv.place esp
    have hpick := fun n => YieldPoint.exec_pick h.pick esp (n := n)
    have hahead := YieldPoint.exec_ahead hok h.pick h.current esp
    rw [YieldState.stmt_of_ne hswitch]
    constructor
    case suspended =>
      intro i hi
      simp only [Function.update_of_ne hi]
      exact h.suspended i hi
    case pick => simpa only [Function.update_self] using hpick
    case current => simpa only [Function.update_self] using hahead
    case used => exact mt (hexec.slots.unused _).1 h.used

theorem tick (h : Alone p) (hinv : YieldInv I live L₀ K p) (hp : p.AtRest) (esp : ℕ) :
    Alone (p.tick A esp) := by
  have hcpu : p.sched.current = p.cpu := hinv.place.2 (by rw [hp]; exact id)
  have hused : (reap A p.sched p.heap).1.stateOf p.cpu ≠ .unused := by
    rw [← hcpu, reap_stateOf_of_not _ p.sched.not_reapable_current, hcpu]
    exact h.used
  rcases tick_cases (A := A) hinv.enabled hinv.current_lt esp with
    ⟨⟨q, e⟩, -⟩ | ⟨n, -, -, -, -, -, e⟩ <;> rw [e] <;>
    generalize reap A p.sched p.heap = r at hused
  · exact of_outside (h.outside hp) hused
  · refine of_outside ?_ ?_
    · exact h.outside hp
    · rw [switched_stateOf, if_pos rfl]
      exact TaskState.noConfusion

/-- A dead task is still in its slot. -/
theorem setState (h : Alone p) (hp : p.AtRest) {i : ℕ} (hi : p.sched.stateOf i ≠ .unused) :
    Alone { p with sched := p.sched.setState i .dead } :=
  of_outside (h.outside hp) (mt ((SameStacks.setState hi (by decide)).unused _).1 h.used)

theorem create (h : Alone p) (hp : p.AtRest) (name : List Char) (entry : ℕ) :
    Alone (p.create A taskExitAddr name entry) := by
  have hpoint : ∀ slot i, Function.update p.point slot .outside i = .outside := by
    intro slot i
    rw [Function.update_apply]
    split_ifs
    · rfl
    · exact h.outside hp i
  unfold YieldState.create
  rcases taskCreate_cases A taskExitAddr name entry p.sched p.heap with
    ⟨-, e⟩ | ⟨-, e⟩ | ⟨slot, hslot, -, e⟩
  · rw [e]
    exact of_outside (h.outside hp) h.used
  · rw [e]
    exact of_outside (h.outside hp) h.used
  · have hneg : ¬ (slot : ℤ) < 0 := by omega
    rw [e]
    simp only [hneg, if_false, Int.toNat_natCast]
    apply of_outside (hpoint slot)
    rw [setTask_stateOf]
    split_ifs
    · exact TaskState.noConfusion
    · exact h.used

end Alone

/-- Live blocks do not overlap, and no address of the kernel's stack lies in one. -/
structure StacksApart (K : Set ℕ) (I : η → Prop) (live : η → Set (ℕ × ℕ)) : Prop where
  blocks : ∀ h, I h → ∀ b ∈ live h, ∀ c ∈ live h, b ≠ c → b.1 + b.2 ≤ c.1 ∨ c.1 + c.2 ≤ b.1
  kernel : ∀ h, I h → ∀ b ∈ live h, ∀ a ∈ K, a < b.1 ∨ b.1 + b.2 ≤ a

/-- No address lies in the stacks of two slots in use. -/
theorem YieldInv.taskStack_apart (hK : StacksApart K I live) (h : YieldInv I live L₀ K p)
    {i j a : ℕ}
    (hi : i < maxTasks) (hj : j < maxTasks) (hui : p.sched.stateOf i ≠ .unused)
    (huj : p.sched.stateOf j ≠ .unused) (hij : i ≠ j) (ha : a ∈ taskStack K p.sched i) :
    a ∉ taskStack K p.sched j := by
  have hlive : ∀ n, Owns p.sched n → stackOf p.sched n ∈ live p.heap := fun n hn =>
    (h.owned.live_eq _).2 (Or.inr ⟨n, hn, rfl⟩)
  unfold taskStack at ha ⊢
  intro ha'
  by_cases hi0 : i = 0
  · have hjo : Owns p.sched j := ⟨by omega, hj, huj⟩
    rw [if_pos hi0] at ha
    rw [if_neg (by omega), Set.mem_Ico] at ha'
    have := hK.kernel _ h.owned.heap _ (hlive j hjo) a ha
    simp only [stackOf] at this
    omega
  · have hio : Owns p.sched i := ⟨by omega, hi, hui⟩
    rw [if_neg hi0, Set.mem_Ico] at ha
    by_cases hj0 : j = 0
    · rw [if_pos hj0] at ha'
      have := hK.kernel _ h.owned.heap _ (hlive i hio) a ha'
      simp only [stackOf] at this
      omega
    · have hjo : Owns p.sched j := ⟨by omega, hj, huj⟩
      rw [if_neg hj0, Set.mem_Ico] at ha'
      have := hK.blocks _ h.owned.heap _ (hlive i hio) _ (hlive j hjo) fun e =>
        hij (h.owned.distinct i j hio hjo (congrArg Prod.fst e))
      simp only [stackOf] at this
      omega

/-- **A misplaced tick** stores the stack pointer of the running task in the slot of another. -/
theorem not_safe_of_misplaced (hK : StacksApart K I live) (h : YieldInv I live L₀ K p)
    (ha : Alone p)
    (hm : p.Misplaced) {esp : ℕ} (hon : p.OnStack K esp) : ¬ (p.tick A esp).Safe := by
  obtain ⟨hahead, hq, hpick⟩ := hm
  have hrun := ha.current hahead
  have hne : p.sched.current ≠ p.cpu := fun e => h.place.1 e hahead
  rcases tick_cases (A := A) h.enabled h.current_lt esp with ⟨-, hq' | hnone | hself⟩ | ⟨n, hn, hnc,
    -, -, -, e⟩
  · omega
  · -- `pick_next` finds at least the current slot
    rcases pickNext_cases p.sched h.current_lt with ⟨-, hall⟩ | ⟨i, -, hi, -⟩
    · rcases hrun with hr | hr
      · exact absurd hr (hall _ h.current_lt).1
      · exact absurd hr (hall _ h.current_lt).2
    · omega
  · exact absurd hself hpick
  · have hcur := reap_current A p.sched p.heap
    have hstate := reap_stateOf_of_not A p.sched.not_reapable_current p.heap
    rw [e]
    generalize reap A p.sched p.heap = r at hcur hstate
    intro hsafe
    have hused : (r.1.switched n esp).stateOf p.sched.current ≠ .unused := by
      rw [switched_stateOf, if_neg (Ne.symm hnc)]
      split_ifs
      · exact TaskState.noConfusion
      · rw [hstate]
        exact hrun.used
    have hown := hsafe.own p.sched.current h.current_lt hused (Ne.symm hnc)
    simp only [switched, hcur, if_true, Function.update_of_ne hne] at hown
    obtain ⟨hleft, hin⟩ := h.saved.own p.sched.current h.current_lt hrun.used hne
    rw [hleft, ← hown] at hin
    exact h.taskStack_apart hK h.cpu_lt h.current_lt ha.used hrun.used (Ne.symm hne)
      (hon ha.used) hin

/-- When every yield has been let finish, no task is left in one. -/
theorem YieldReach.alone (hA : HeapSpec A I live) {h₀ : η} (hI : I h₀)
    (h : YieldReach A taskExitAddr K YieldState.AtRest h₀ p) :
    YieldInv I live (live h₀) K p ∧ Alone p := by
  refine Reach.invariant (I := fun p => YieldInv I live (live h₀) K p ∧ Alone p) h ?_ ?_
  · rintro q rfl
    refine ⟨YieldInv.start hI, Alone.of_outside (fun _ => rfl) fun hu => ?_⟩
    have hkernel : (schedulerInit zeroed).stateOf 0 = .running := schedulerInit_stateOf 0
    cases hkernel.symm.trans hu
  · rintro q r - ⟨hq, hal⟩ hs
    refine ⟨hq.step hA hal.harmless hs, ?_⟩
    cases hs with
    | create name entry hp => exact hal.create hp name entry
    | kill id hp =>
      unfold taskKill
      split_ifs with h1 h2
      · exact hal
      · exact hal
      · exact hal.setState hp h2
    | exit hp hc => exact hal.setState hp hq.current_used
    | call hp =>
      constructor
      case suspended =>
        intro i hi
        simp only [Function.update_of_ne hi]
        exact hal.suspended i hi
      case pick =>
        intro n hn
        simp only [Function.update_self] at hn
        cases hn
      case current =>
        intro ha
        simp only [Function.update_self] at ha
        exact ha.elim
      case used => exact hal.used
    | stmt esp hp he => exact hal.stmt hq esp
    | tick esp he ht => exact hal.tick hq ht esp

end Invariant

/-- The kernel's heap lies above the kernel's stack. -/
theorem heapApi_stacksApart {σ : Type} {K : Set ℕ} (hK : ∀ a ∈ K, a < heapStart) :
    StacksApart K (HeapOk : Option (HeapSystem σ) → Prop) liveOf where
  blocks := by
    rintro h ⟨q, l, rfl, hinv⟩ b hb c hc hne
    exact hinv.accounts.disjoint hb hc hne
  kernel := by
    rintro h ⟨q, l, rfl, hinv⟩ b hb a ha
    obtain ⟨pre, x, post, -, -, -, hp⟩ := hinv.exists_block hb
    have := hK a ha
    omega

/-- **One tick in `task_yield`.** In a state that the operations reach, with every call of
`task_yield` so far uninterrupted and one perhaps under way, a tick comes. From then on, whatever
happens short of another tick, every suspended task's saved stack pointer is the one with which it
was switched out or created, and it lies in its stack, if and only if the tick is not misplaced:
`current = next` has been executed, `context_switch` has not, the quantum is used up, and there is
another slot to switch to. -/
theorem task_yield_tick {σ : Type} {B : Backing σ} {taskExitAddr : ℕ} {K : Set ℕ}
    {h₀ : Option (HeapSystem σ)} (hI : HeapOk h₀) (hK : ∀ a ∈ K, a < heapStart)
    {p : YieldState (Option (HeapSystem σ))}
    (h : YieldReach (heapApi B) taskExitAddr K YieldState.AtRest h₀ p) {esp : ℕ}
    (hon : p.OnStack K esp) :
    (∀ q, WithoutTicks (heapApi B) taskExitAddr K (p.tick (heapApi B) esp) q → q.Safe) ↔
      ¬ p.Misplaced := by
  obtain ⟨hinv, halone⟩ := h.alone heapApi_spec hI
  constructor
  · intro hall hm
    exact not_safe_of_misplaced (heapApi_stacksApart hK) hinv halone hm hon (hall _ (.start rfl))
  · intro hm q hq
    have hnext := hinv.tick (heapApi_spec (B := B)) ⟨hm, halone.picksKept⟩ hon
    have hinvq : YieldInv HeapOk liveOf (liveOf h₀) K q := by
      refine Reach.invariant (I := YieldInv HeapOk liveOf (liveOf h₀) K) hq ?_ ?_
      · rintro r rfl
        exact hnext
      · intro r u _ hr hs
        exact hr.step heapApi_spec False.elim hs
    exact hinvq.safe

/-! ## A tick one statement too late -/

/-- Statements of the kernel's `task_yield`. -/
theorem YieldReach.stmts {σ : Type} {B : Backing σ} {taskExitAddr : ℕ} {K : Set ℕ}
    {h₀ : Option (HeapSystem σ)} {p : YieldState (Option (HeapSystem σ))} {esp : ℕ} (hesp : esp ∈ K)
    (n : ℕ) (h : YieldReach (heapApi B) taskExitAddr K YieldState.AtRest h₀ p)
    (hp : ∀ k < n, ((YieldState.stmt esp)^[k] p).cpu = 0 ∧
      ((YieldState.stmt esp)^[k] p).point 0 ≠ .outside) :
    YieldReach (heapApi B) taskExitAddr K YieldState.AtRest h₀ ((YieldState.stmt esp)^[n] p) := by
  apply Reach.iterate h
  intro k hk
  obtain ⟨hcpu, hpoint⟩ := hp k hk
  apply YieldStep.stmt esp
  · intro hrest
    unfold YieldState.AtRest at hrest
    rw [hcpu] at hrest
    exact hpoint hrest
  · intro _
    rw [hcpu]
    exact hesp

/-- Ticks while the kernel runs. -/
theorem YieldReach.ticks {σ : Type} {B : Backing σ} {taskExitAddr : ℕ} {K : Set ℕ}
    {h₀ : Option (HeapSystem σ)} {p : YieldState (Option (HeapSystem σ))} {esp : ℕ} (hesp : esp ∈ K)
    (n : ℕ) (h : YieldReach (heapApi B) taskExitAddr K YieldState.AtRest h₀ p)
    (hp : ∀ k < n, ((YieldState.tick (heapApi B) esp)^[k] p).cpu = 0 ∧
      ((YieldState.tick (heapApi B) esp)^[k] p).point 0 = .outside) :
    YieldReach (heapApi B) taskExitAddr K YieldState.AtRest h₀
      ((YieldState.tick (heapApi B) esp)^[n] p) := by
  apply Reach.iterate h
  intro k hk
  obtain ⟨hcpu, hpoint⟩ := hp k hk
  apply YieldStep.tick esp
  · intro _
    rw [hcpu]
    exact hesp
  · unfold YieldState.AtRest
    rw [hcpu]
    exact hpoint

/-- One task has been created, four ticks have come, and the kernel calls `task_yield`. -/
def yieldCalled : YieldState (Option (HeapSystem ℕ)) :=
  let p := (YieldState.start (some ⟨freshHeap, ∅⟩)).create (heapApi bumpBacking) 0x100000 "a".toList
    0x2000
  let q := (YieldState.tick (heapApi bumpBacking) 0x110000)^[4] p
  { q with point := Function.update q.point q.cpu .enter }

/-- The kernel has executed `n` statements of `task_yield`. -/
def yieldAfter (n : ℕ) : YieldState (Option (HeapSystem ℕ)) :=
  (YieldState.stmt 0x110000)^[n] yieldCalled

theorem yieldReach_yieldAfter {n : ℕ} (hn : n ≤ 8) :
    YieldReach (heapApi bumpBacking) 0x100000 (Set.Iio heapStart) YieldState.AtRest
      (some ⟨freshHeap, ∅⟩) (yieldAfter n) := by
  have hesp : 0x110000 ∈ Set.Iio heapStart := by decide
  have hcreate : YieldReach (heapApi bumpBacking) 0x100000 (Set.Iio heapStart) YieldState.AtRest
      (some ⟨freshHeap, ∅⟩) ((YieldState.start (some ⟨freshHeap, ∅⟩)).create (heapApi bumpBacking)
        0x100000 "a".toList 0x2000) := Reach.next (.start rfl) (.create _ _ rfl)
  have hticks := YieldReach.ticks hesp 4 hcreate (by decide +kernel)
  have hcalled : YieldReach (heapApi bumpBacking) 0x100000 (Set.Iio heapStart) YieldState.AtRest
      (some ⟨freshHeap, ∅⟩) yieldCalled :=
        Reach.next hticks (.call (by unfold YieldState.AtRest; decide +kernel))
  refine YieldReach.stmts hesp n hcalled fun k hk => ?_
  have hall : ∀ k < 8, (yieldAfter k).cpu = 0 ∧
    (yieldAfter k).point 0 ≠ .outside := by decide +kernel
  exact hall k (by omega)

/-- The kernel runs on its own stack. -/
theorem onStack_yieldAfter {n : ℕ} (hn : (yieldAfter n).cpu = 0) :
    (yieldAfter n).OnStack (Set.Iio heapStart) 0x110000 := by
  intro _
  rw [hn]
  exact (by decide : 0x110000 < heapStart)

/-- A tick before `current = next` switches to the other task and does no harm. -/
theorem task_yield_tick_yieldAfter : (yieldAfter 7).point 0 = .advance 1 0 ∧
    ∀ q, WithoutTicks (heapApi bumpBacking) 0x100000 (Set.Iio heapStart)
      ((yieldAfter 7).tick (heapApi bumpBacking) 0x110000) q → q.Safe := by
  refine ⟨by decide +kernel, ?_⟩
  refine (task_yield_tick (B := bumpBacking) ⟨_, _, rfl, HeapInv.started heapStarted_freshHeap⟩
    (fun _ ha => ha) (yieldReach_yieldAfter (by decide))
      (onStack_yieldAfter (by decide +kernel))).2 ?_
  rintro ⟨hahead, -⟩
  revert hahead
  decide +kernel

/-- **A tick right after `current = next`**, with the quantum used up, stores the kernel's stack
pointer in the slot of the task that was to be switched to. -/
theorem task_yield_tick_after_advance :
    YieldReach (heapApi bumpBacking) 0x100000 (Set.Iio heapStart) YieldState.AtRest
      (some ⟨freshHeap, ∅⟩) (yieldAfter 8) ∧
    (yieldAfter 8).OnStack (Set.Iio heapStart) 0x110000 ∧
    (yieldAfter 8).point 0 = .promote 0 ∧
    ((yieldAfter 8).sched.tasks 1).esp = heapStart + 16 + taskStackSize - 44 ∧
    (((yieldAfter 8).tick (heapApi bumpBacking) 0x110000).sched.tasks 1).esp = 0x110000 ∧
    ((yieldAfter 8).tick (heapApi bumpBacking) 0x110000).sched.stateOf 1 = .ready ∧
    ¬ ((yieldAfter 8).tick (heapApi bumpBacking) 0x110000).Safe := by
  obtain ⟨hold, hnew, hstate, hbase⟩ :
      ((yieldAfter 8).sched.tasks 1).esp = heapStart + 16 + taskStackSize - 44 ∧
      (((yieldAfter 8).tick (heapApi bumpBacking) 0x110000).sched.tasks 1).esp = 0x110000 ∧
      ((yieldAfter 8).tick (heapApi bumpBacking) 0x110000).sched.stateOf 1 = .ready ∧
      (((yieldAfter 8).tick (heapApi bumpBacking) 0x110000).sched.tasks 1).stackBase =
        heapStart + 16 := by
    decide +kernel
  refine ⟨yieldReach_yieldAfter (le_refl 8),
    onStack_yieldAfter (by decide +kernel), by decide +kernel,
    hold, hnew, hstate, fun hsafe => ?_⟩
  have hin := (hsafe.inStack 1 ⟨by decide, by decide, by rw [hstate]; decide⟩).1
  rw [hnew, hbase] at hin
  exact absurd hin (by decide)

end JarvisOS
