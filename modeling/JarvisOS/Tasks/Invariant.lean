import JarvisOS.Foundations.Reach
import JarvisOS.Tasks.TaskHeap
import Mathlib.Logic.Relation

/-!
# The scheduler's invariant

`SchedInv` says which slot runs: only the current one, which is running or dead; the kernel's slot
is never given up, so `pick_next` always finds a slot. Every operation preserves it
(`SchedStep.inv`). A dead task stays dead until `reap` empties its slot (`SchedStep.dead`), and
once another slot is current the next tick does so (`reaped_of_tick`).
-/

namespace JarvisOS

open Foundations Sched

/-- The operations that change the scheduler, with their arguments. -/
inductive SchedOp
  | create (name : List Char) (entry : ℕ)
  | kill (id : ℕ)
  | exit
  | yield (esp : ℕ)
  | tick (esp : ℕ)

/-- The operation is a timer tick. -/
def SchedOp.isTick : SchedOp → Bool
  | tick _ => true
  | _ => false

section Steps

variable {η : Type} (A : HeapApi η) (taskExitAddr : ℕ)

/-- One operation, taken as an atomic step. A task exits only when it is not task 0. -/
inductive SchedStep : SchedOp → Sched × η → Sched × η → Prop
  | create (name : List Char) (entry : ℕ) (s : Sched) (h : η) :
      SchedStep (.create name entry) (s, h) (taskCreate A taskExitAddr name entry s h).2
  | kill (id : ℕ) (s : Sched) (h : η) : SchedStep (.kill id) (s, h) ((taskKill id s).2, h)
  | exit (s : Sched) (h : η) (hc : s.current ≠ 0) : SchedStep .exit (s, h) (s.taskExit, h)
  | yield (esp : ℕ) (s : Sched) (h : η) : SchedStep (.yield esp) (s, h) (s.taskYield esp, h)
  | tick (esp : ℕ) (s : Sched) (h : η) : SchedStep (.tick esp) (s, h) (schedulerTick A esp s h)

/-- The states that the operations reach from `scheduler_init`, over a heap `h₀`. -/
def SchedReach (h₀ : η) : Sched × η → Prop :=
  Reach (fun p => p = (schedulerInit zeroed, h₀)) fun p q => ∃ op, SchedStep A taskExitAddr op p q

end Steps

/-- The scheduler's invariant. -/
structure SchedInv (s : Sched) : Prop where
  current_lt : s.current < maxTasks
  /-- Only the current slot runs. -/
  others : ∀ i < maxTasks, i ≠ s.current → s.stateOf i ≠ .running
  current : s.stateOf s.current = .running ∨ s.stateOf s.current = .dead
  kernel : s.stateOf 0 = .running ∨ s.stateOf 0 = .ready
  ids : ∀ i < maxTasks, s.stateOf i ≠ .unused → (s.tasks i).id = i
  quantum_pos : 1 ≤ s.quantumLeft
  quantum_le : s.quantumLeft ≤ taskQuantum
  enabled : s.enabled = true

namespace SchedInv

variable {s : Sched}

theorem withQuantum (h : SchedInv s) {q : ℕ} (h1 : 1 ≤ q) (h2 : q ≤ taskQuantum) :
    SchedInv { s with quantumLeft := q } :=
  ⟨h.current_lt, h.others, h.current, h.kernel, h.ids, h1, h2, h.enabled⟩

theorem schedulerInit : SchedInv (schedulerInit zeroed) := by
  constructor
  case current_lt => decide
  case others =>
    intro i _ hne
    rw [schedulerInit_stateOf, if_neg (show i ≠ 0 from hne)]
    exact TaskState.noConfusion
  case current => exact Or.inl rfl
  case kernel => exact Or.inl rfl
  case ids =>
    intro i _ hu
    rw [schedulerInit_stateOf] at hu
    by_cases hi : i = 0
    · subst hi
      rfl
    · simp [hi] at hu
  case quantum_pos => decide
  case quantum_le => decide
  case enabled => rfl

/-- Changing the state of a slot that is not running to one that does not run, outside the
kernel's slot. -/
theorem setState_of_ne (h : SchedInv s) {i : ℕ} {st : TaskState} (hi : i ≠ 0)
    (hst : st ≠ .running) (hu : s.stateOf i = .unused → st = .unused)
    (hc : i = s.current → st = .dead) : SchedInv (s.setState i st) where
  current_lt := h.current_lt
  others j hj hne := by
    rw [setState_stateOf]
    split_ifs with hji
    · exact hst
    · exact h.others j hj hne
  current := by
    rw [setState_current, setState_stateOf]
    split_ifs with hci
    · exact Or.inr (hc hci.symm)
    · exact h.current
  kernel := by
    rw [setState_stateOf, if_neg (Ne.symm hi)]
    exact h.kernel
  ids j hj hju := by
    rw [setState_tasks]
    rw [setState_stateOf] at hju
    refine h.ids j hj fun hu' => ?_
    split_ifs at hju with hji
    · exact hju (hu (hji ▸ hu'))
    · exact hju hu'
  quantum_pos := h.quantum_pos
  quantum_le := h.quantum_le
  enabled := h.enabled

theorem taskKill (h : SchedInv s) (id : ℕ) : SchedInv (taskKill id s).2 := by
  unfold Sched.taskKill
  split_ifs with h1 h2
  · exact h
  · exact h
  · exact h.setState_of_ne (by omega) (by decide) (fun hu => absurd hu h2) fun _ => rfl

theorem taskExit (h : SchedInv s) (hc : s.current ≠ 0) : SchedInv s.taskExit := by
  refine h.setState_of_ne hc (by decide) (fun hu => ?_) fun _ => rfl
  rcases h.current with hr | hr <;> simp [hr] at hu

/-- A new task takes an unused slot. -/
theorem setTask_created (h : SchedInv s) {slot : ℕ} (h1 : 1 ≤ slot) (h3 : s.stateOf slot = .unused)
    (sp stack : ℕ) (name : List Char) : SchedInv (s.setTask slot (created slot sp stack name)) := by
  have hne : s.current ≠ slot := fun hc => by
    rcases h.current with hr | hr <;> rw [hc, h3] at hr <;> cases hr
  constructor
  case current_lt => exact h.current_lt
  case others =>
    intro i hi hic
    rw [setTask_stateOf]
    split_ifs with his
    · exact TaskState.noConfusion
    · exact h.others i hi hic
  case current =>
    rw [setTask_current, setTask_stateOf, if_neg hne]
    exact h.current
  case kernel =>
    rw [setTask_stateOf, if_neg (by omega)]
    exact h.kernel
  case ids =>
    intro i hi hu
    rw [setTask_tasks]
    split_ifs with his
    · exact his.symm
    · rw [setTask_stateOf, if_neg his] at hu
      exact h.ids i hi hu
  case quantum_pos => exact h.quantum_pos
  case quantum_le => exact h.quantum_le
  case enabled => exact h.enabled

theorem reap {η : Type} (A : HeapApi η) (h : SchedInv s) (hp : η) : SchedInv (reap A s hp).1 := by
  have hkernel : ¬ s.Reapable 0 := fun hr => by
    rcases h.kernel with hk | hk <;> rw [hr.1] at hk <;> cases hk
  constructor
  case current_lt =>
    rw [reap_current]
    exact h.current_lt
  case others =>
    intro i hi hne
    rw [reap_stateOf]
    split_ifs
    · exact TaskState.noConfusion
    · refine h.others i hi fun hc => hne ?_
      rw [reap_current]
      exact hc
  case current =>
    rw [reap_current, reap_stateOf_of_not _ s.not_reapable_current]
    exact h.current
  case kernel =>
    rw [reap_stateOf_of_not _ hkernel]
    exact h.kernel
  case ids =>
    intro i hi hu
    rw [reap_stateOf] at hu
    split_ifs at hu with hr
    · exact absurd rfl hu
    · rw [reap_fst]
      simp only [hr, if_false]
      exact h.ids i hi hu
  case quantum_pos =>
    rw [reap_quantumLeft]
    exact h.quantum_pos
  case quantum_le =>
    rw [reap_quantumLeft]
    exact h.quantum_le
  case enabled =>
    rw [reap_enabled]
    exact h.enabled

/-- `pick_next` finds a slot that can run. -/
theorem pickNext (h : SchedInv s) :
    ∃ i < maxTasks, s.pickNext = i ∧ (s.stateOf i = .ready ∨ s.stateOf i = .running) := by
  rcases pickNext_cases s h.current_lt with ⟨-, hnone⟩ | hsome
  · rcases h.kernel with hk | hk
    · exact absurd hk (hnone 0 (by decide)).2
    · exact absurd hk (hnone 0 (by decide)).1
  · exact hsome

theorem switched (h : SchedInv s) {next : ℕ} (hn : next < maxTasks) (hne : next ≠ s.current)
    (hr : s.stateOf next = .ready ∨ s.stateOf next = .running) (esp : ℕ) :
    SchedInv (s.switched next esp) where
  current_lt := hn
  others i hi hin := by
    rw [switched_stateOf, if_neg (show i ≠ next from hin)]
    split_ifs with hc
    · exact TaskState.noConfusion
    · intro hrun
      by_cases hic : i = s.current
      · exact hc ⟨hic, hrun⟩
      · exact h.others i hi hic hrun
  current := Or.inl (if_pos rfl)
  kernel := by
    rw [switched_stateOf]
    split_ifs
    · exact Or.inl rfl
    · exact Or.inr rfl
    · exact h.kernel
  ids i hi hu := by
    refine h.ids i hi fun hun => hu ?_
    have hin : i ≠ next := by
      rintro rfl
      rcases hr with hr | hr <;> rw [hun] at hr <;> cases hr
    rw [switched_stateOf, if_neg hin, if_neg fun hc => by rw [hun] at hc; cases hc.2]
    exact hun
  quantum_pos := Nat.le_add_left 1 4
  quantum_le := le_refl taskQuantum
  enabled := h.enabled

/-- Switching to what `pick_next` chooses. -/
theorem switchTo_pickNext (h : SchedInv s) (esp : ℕ) : SchedInv (switchTo s.pickNext esp s) := by
  obtain ⟨i, hi, hpick, hr⟩ := h.pickNext
  rw [hpick]
  by_cases hic : i = s.current
  · rw [hic, switchTo_self]
    exact h
  · rw [switchTo_of_ne s esp hic]
    exact h.switched hi hic hr esp

theorem taskYield (h : SchedInv s) (esp : ℕ) : SchedInv (s.taskYield esp) := by
  unfold Sched.taskYield
  split_ifs
  · exact h
  · exact h.switchTo_pickNext esp

theorem schedulerTick {η : Type} (A : HeapApi η) (h : SchedInv s) (esp : ℕ) (hp : η) :
    SchedInv (schedulerTick A esp s hp).1 := by
  have hreap := h.reap A hp
  rw [schedulerTick_of_enabled A h.enabled]
  simp only
  split_ifs with hq
  · exact hreap.withQuantum (Nat.le_sub_one_of_lt hq) ((Nat.sub_le _ _).trans hreap.quantum_le)
  · exact hreap.switchTo_pickNext esp

end SchedInv

section Runs

variable {η : Type} {A : HeapApi η} {taskExitAddr : ℕ} {op : SchedOp} {p q : Sched × η}

/-- **Every operation preserves the invariant.** -/
theorem SchedStep.inv (h : SchedInv p.1) (hs : SchedStep A taskExitAddr op p q) : SchedInv q.1 := by
  cases hs with
  | create name entry s hp =>
    rcases taskCreate_sched_cases A taskExitAddr name entry s hp
      with e | ⟨slot, sp, stack, hslot, e⟩
    · rw [e]
      exact h
    · rw [e]
      obtain ⟨h1, -, h3⟩ := findSlot_some hslot
      exact h.setTask_created h1 h3 _ _ name
  | kill id s hp => exact h.taskKill id
  | exit s hp hc => exact h.taskExit hc
  | yield esp s hp => exact h.taskYield esp
  | tick esp s hp => exact h.schedulerTick A esp hp

theorem SchedReach.inv {h₀ : η} (h : SchedReach A taskExitAddr h₀ p) : SchedInv p.1 := by
  refine Reach.invariant (I := fun p => SchedInv p.1) h ?_ ?_
  · rintro p rfl
    exact SchedInv.schedulerInit
  · rintro p q - hp ⟨op, hs⟩
    exact hs.inv hp

/-! ## Dead tasks -/

theorem taskKill_dead {s : Sched} {i : ℕ} (hd : s.stateOf i = .dead) (id : ℕ) :
    (taskKill id s).2.stateOf i = .dead := by
  unfold taskKill
  split_ifs
  · exact hd
  · exact hd
  · rw [setState_stateOf, hd, ite_self]

/-- A switch does not change the state of a slot that cannot run. -/
theorem switchTo_pickNext_of_idle {s : Sched} (h : SchedInv s) {i : ℕ}
    (hi : s.stateOf i ≠ .ready ∧ s.stateOf i ≠ .running) (esp : ℕ) :
    (switchTo s.pickNext esp s).stateOf i = s.stateOf i := by
  obtain ⟨j, hj, hpick, hr⟩ := h.pickNext
  rw [hpick]
  by_cases hjc : j = s.current
  · rw [hjc, switchTo_self]
  · have hij : i ≠ j := by
      rintro rfl
      exact hr.elim hi.1 hi.2
    rw [switchTo_of_ne s esp hjc, switched_stateOf, if_neg hij, if_neg fun hc => hi.2 hc.2]

theorem switchTo_pickNext_dead {s : Sched} (h : SchedInv s) {i : ℕ} (hd : s.stateOf i = .dead)
    (esp : ℕ) : (switchTo s.pickNext esp s).stateOf i = .dead :=
  (switchTo_pickNext_of_idle h (by rw [hd]; decide) esp).trans hd

/-- An operation other than a tick leaves a dead task dead. -/
theorem SchedStep.dead_of_not_tick (h : SchedInv p.1) (hs : SchedStep A taskExitAddr op p q)
    (hop : op.isTick = false) {i : ℕ} (hd : p.1.stateOf i = .dead) : q.1.stateOf i = .dead := by
  cases hs with
  | create name entry s hp =>
    rcases taskCreate_sched_cases A taskExitAddr name entry s hp
      with e | ⟨slot, sp, stack, hslot, e⟩
    · rw [e]
      exact hd
    · have hne : i ≠ slot := by
        rintro rfl
        rw [(findSlot_some hslot).2.2] at hd
        cases hd
      rw [e]
      exact (setTask_stateOf _ _ _ _).trans ((if_neg hne).trans hd)
  | kill id s hp => exact taskKill_dead hd id
  | exit s hp hc => exact (setState_stateOf _ _ _ _).trans (by rw [hd, ite_self])
  | yield esp s hp =>
    unfold taskYield
    split_ifs
    · exact hd
    · exact switchTo_pickNext_dead h hd esp
  | tick esp s hp => cases hop

/-- A tick leaves a dead task dead or empties its slot, and it empties the slot when another is
current. -/
theorem schedulerTick_dead {s : Sched} (h : SchedInv s) {i : ℕ} (hi : i < maxTasks)
    (hd : s.stateOf i = .dead) (esp : ℕ) (hp : η) :
    (schedulerTick A esp s hp).1.stateOf i = if i = s.current then .dead else .unused := by
  have hpos : 1 ≤ i := by
    rcases Nat.eq_zero_or_pos i with rfl | hpos
    · rcases h.kernel with hk | hk <;> rw [hd] at hk <;> cases hk
    · exact hpos
  have hreap : (reap A s hp).1.stateOf i = if i = s.current then .dead else .unused := by
    rw [reap_stateOf]
    by_cases hic : i = s.current
    · rw [if_neg fun hr => hr.2.2 hic, if_pos hic, hd]
    · rw [if_pos ⟨⟨hpos, hi⟩, hd, hic⟩, if_neg hic]
  have hinv := h.reap A hp
  rw [schedulerTick_of_enabled A h.enabled]
  generalize (reap A s hp).1 = r at hreap hinv
  rw [← hreap]
  simp only
  by_cases hq : r.quantumLeft > 1
  · rw [if_pos hq]
    rfl
  · rw [if_neg hq]
    exact switchTo_pickNext_of_idle hinv (by rw [hreap]; split_ifs <;> decide) esp

/-- **A dead task stays dead until its slot is emptied.** -/
theorem SchedStep.dead (h : SchedInv p.1) (hs : SchedStep A taskExitAddr op p q) {i : ℕ}
    (hi : i < maxTasks) (hd : p.1.stateOf i = .dead) :
    q.1.stateOf i = .dead ∨ q.1.stateOf i = .unused := by
  by_cases hop : op.isTick = true
  · cases hs with
    | tick esp s hp =>
      have := schedulerTick_dead (A := A) h hi hd esp hp
      by_cases hic : i = s.current
      · exact Or.inl (this.trans (if_pos hic))
      · exact Or.inr (this.trans (if_neg hic))
    | _ => cases hop
  · exact Or.inl (hs.dead_of_not_tick h (by simpa using hop) hd)

/-- A dead slot that is not current is not made current by an operation other than a tick. -/
theorem SchedStep.current_of_not_tick (h : SchedInv p.1) (hs : SchedStep A taskExitAddr op p q)
    (hop : op.isTick = false) {i : ℕ} (hd : p.1.stateOf i = .dead) (hc : i ≠ p.1.current) :
    i ≠ q.1.current := by
  cases hs with
  | create name entry s hp =>
    rcases taskCreate_sched_cases A taskExitAddr name entry s hp with e | ⟨slot, sp, stack, -, e⟩
    · rw [e]
      exact hc
    · rw [e]
      exact hc
  | kill id s hp =>
    unfold taskKill
    split_ifs <;> exact hc
  | exit s hp hc' => exact hc
  | yield esp s hp =>
    unfold taskYield
    split_ifs
    · exact hc
    · obtain ⟨j, hj, hpick, hr⟩ := h.pickNext
      rw [hpick]
      by_cases hjc : j = s.current
      · rw [hjc, switchTo_self]
        exact hc
      · rw [switchTo_of_ne s esp hjc]
        rintro rfl
        rcases hr with hr | hr <;> rw [hd] at hr <;> cases hr
  | tick esp s hp => cases hop

/-- Steps other than ticks. -/
def Quiet (A : HeapApi η) (taskExitAddr : ℕ) : Sched × η → Sched × η → Prop :=
  Relation.ReflTransGen fun p q => ∃ op : SchedOp, op.isTick = false ∧
    SchedStep A taskExitAddr op p q

/-- **After a switch away from a dead task the next tick reaps it**: whatever other operations
come in between, the tick empties the slot. -/
theorem reaped_of_tick (h : SchedInv p.1) {i : ℕ} (hi : i < maxTasks)
    (hd : p.1.stateOf i = .dead) (hc : i ≠ p.1.current) (hq : Quiet A taskExitAddr p q) (esp : ℕ) :
    (schedulerTick A esp q.1 q.2).1.stateOf i = .unused := by
  obtain ⟨hq1, hq2, hq3⟩ : SchedInv q.1 ∧ q.1.stateOf i = .dead ∧ i ≠ q.1.current := by
    induction hq with
    | refl => exact ⟨h, hd, hc⟩
    | tail _ hs ih =>
      obtain ⟨op, hop, hs⟩ := hs
      obtain ⟨ih1, ih2, ih3⟩ := ih
      exact ⟨hs.inv ih1, hs.dead_of_not_tick ih1 hop ih2, hs.current_of_not_tick ih1 hop ih2 ih3⟩
  exact (schedulerTick_dead hq1 hi hq2 esp q.2).trans (if_neg hq3)

/-- **The scheduler invariant over all runs.** In every state the operations reach from
`scheduler_init`: the invariant holds, `pick_next` does not return `-1`, a dead task becomes
nothing but reaped in one step, and once it has been switched away from, the next tick reaps it. -/
theorem scheduler_invariant (h₀ : η) (h : SchedReach A taskExitAddr h₀ p) :
    SchedInv p.1 ∧ p.1.pickNext ≠ -1 ∧
    (∀ op q, SchedStep A taskExitAddr op p q → ∀ i < maxTasks, p.1.stateOf i = .dead →
      q.1.stateOf i = .dead ∨ q.1.stateOf i = .unused) ∧
    (∀ op q, SchedStep A taskExitAddr op p q → p.1.stateOf p.1.current = .dead →
      q.1.current ≠ p.1.current → ∀ r, Quiet A taskExitAddr q r → ∀ esp,
        (schedulerTick A esp r.1 r.2).1.stateOf p.1.current = .unused) := by
  have hinv := h.inv
  refine ⟨hinv, ?_, fun op q hs i hi hd => hs.dead hinv hi hd, fun op q hs hd hne r hr esp => ?_⟩
  · obtain ⟨i, -, hpick, -⟩ := hinv.pickNext
    rw [hpick]
    omega
  · -- the slot that is left is still dead: a tick does not reap the current slot
    have hq : q.1.stateOf p.1.current = .dead := by
      by_cases hop : op.isTick = true
      · cases hs with
        | tick esp s hp =>
          exact (schedulerTick_dead hinv hinv.current_lt hd esp hp).trans (if_pos rfl)
        | _ => cases hop
      · exact hs.dead_of_not_tick hinv (by simpa using hop) hd
    exact reaped_of_tick (hs.inv hinv) hinv.current_lt hq (Ne.symm hne) hr esp

end Runs

/-! ## A run over the kernel's heap -/

/-- The scheduler and the heap after `scheduler_init` and the creation of one task. -/
@[irreducible] def oneTask : Sched × Option (HeapSystem ℕ) :=
  (taskCreate (heapApi bumpBacking) 0x100000 "a".toList 0x2000 (schedulerInit zeroed)
    (some ⟨freshHeap, ∅⟩)).2

theorem schedReach_oneTask :
    SchedReach (heapApi bumpBacking) 0x100000 (some ⟨freshHeap, ∅⟩) oneTask := by
  unfold oneTask
  exact Reach.next (.start rfl) ⟨.create _ _, .create _ _ _ _⟩

/-- The task has been killed. -/
def killedTask : Sched × Option (HeapSystem ℕ) := ((taskKill 1 oneTask.1).2, oneTask.2)

theorem schedReach_killedTask :
    SchedReach (heapApi bumpBacking) 0x100000 (some ⟨freshHeap, ∅⟩) killedTask :=
  schedReach_oneTask.next ⟨.kill 1, .kill 1 oneTask.1 oneTask.2⟩

theorem scheduler_invariant_killedTask :
    killedTask.1.stateOf 1 = .dead ∧ SchedInv killedTask.1 ∧ killedTask.1.pickNext ≠ -1 := by
  obtain ⟨hinv, hpick, -⟩ := scheduler_invariant _ schedReach_killedTask
  exact ⟨by decide +kernel, hinv, hpick⟩

end JarvisOS
