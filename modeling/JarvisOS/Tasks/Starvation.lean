import JarvisOS.Foundations.Ranking
import JarvisOS.Tasks.Invariant

/-!
# No runnable task starves

A task that is ready waits for the scheduler to come around the table. `slotDistance` is how far the
current slot still has to move, `waitRank` the number of ticks this can take at most. A switch moves
the current slot closer (`pickNext_within`), a tick that does not switch uses up the quantum, and
nothing else moves the current slot away or refills the quantum, so the rank pays for every tick
(`SchedStep.wait`).
-/

namespace JarvisOS

open Foundations Sched

namespace Sched

/-! ## Around the table -/

/-- How far slot `i` lies behind the current slot, in cyclic order. -/
def slotDistance (s : Sched) (i : ℕ) : ℕ := (i + maxTasks - s.current) % maxTasks

theorem slotDistance_lt (s : Sched) (i : ℕ) : s.slotDistance i < maxTasks :=
  Nat.mod_lt _ (by decide)

theorem slotDistance_pos {s : Sched} {i : ℕ} (hc : s.current < maxTasks) (hi : i < maxTasks)
    (hne : i ≠ s.current) : 1 ≤ s.slotDistance i := by
  unfold slotDistance
  simp only [maxTasks] at *
  omega

/-- **`pick_next` stops at the latest at a slot that can run.** -/
theorem pickNext_within {s : Sched} {i : ℕ} (hc : s.current < maxTasks) (hi : i < maxTasks)
    (hne : i ≠ s.current) (hr : s.stateOf i = .ready) :
    ∃ d, 1 ≤ d ∧ d ≤ s.slotDistance i ∧ s.pickNext = ((s.current + d) % maxTasks : ℕ) ∧
      (s.stateOf ((s.current + d) % maxTasks) = .ready ∨
        s.stateOf ((s.current + d) % maxTasks) = .running) := by
  have hpos := slotDistance_pos hc hi hne
  have hlt := s.slotDistance_lt i
  have hget : (s.current + s.slotDistance i) % maxTasks = i := by
    unfold slotDistance
    simp only [maxTasks] at *
    omega
  rcases hfind : ((List.range' 1 maxTasks).map fun step => (s.current + step) % maxTasks).find?
      (fun j => s.stateOf j = .ready ∨ s.stateOf j = .running) with _ | j
  · have hmem : i ∈ (List.range' 1 maxTasks).map fun step => (s.current + step) % maxTasks := by
      refine List.mem_map.2 ⟨s.slotDistance i, ?_, hget⟩
      rw [List.mem_range'_1]
      omega
    have := List.find?_eq_none.1 hfind i hmem
    simp [hr] at this
  · obtain ⟨hj, k, hk, hkj, hbefore⟩ := List.find?_eq_some_iff_getElem.1 hfind
    rw [List.length_map, List.length_range'] at hk
    simp only [List.getElem_map, List.getElem_range', Nat.one_mul] at hkj
    have hle : k + 1 ≤ s.slotDistance i := by
      by_contra hgt
      -- slot `i` would have been met before
      have hmet := hbefore (s.slotDistance i - 1) (by omega)
      simp only [List.getElem_map, List.getElem_range', Nat.one_mul,
        show 1 + (s.slotDistance i - 1) = s.slotDistance i by omega, hget, hr] at hmet
      simp at hmet
    refine ⟨k + 1, Nat.le_add_left 1 k, hle, ?_, ?_⟩
    · rw [pickNext, hfind, ← hkj, Nat.add_comm 1 k]
    · rw [Nat.add_comm k 1, hkj]
      simpa using hj

/-- Moving the current slot forward by at most the distance takes that much off it. -/
theorem slotDistance_forward {s t : Sched} {i d : ℕ} (h1 : 1 ≤ d) (hd : d ≤ s.slotDistance i)
    (ht : t.current = (s.current + d) % maxTasks) :
    t.slotDistance i = s.slotDistance i - d := by
  unfold slotDistance at *
  rw [ht]
  simp only [maxTasks] at *
  omega

/-! ## The rank -/

/-- The ticks that slot `i` still has to wait at most. -/
def waitRank (s : Sched) (i : ℕ) : ℕ := (s.slotDistance i - 1) * taskQuantum + s.quantumLeft

theorem waitRank_le {s : Sched} (h : SchedInv s) (i : ℕ) :
    s.waitRank i ≤ (maxTasks - 1) * taskQuantum := by
  have := s.slotDistance_lt i
  have := h.quantum_le
  unfold waitRank
  simp only [maxTasks, taskQuantum] at *
  omega

end Sched

/-- A ready slot is not the current one. -/
theorem SchedInv.ne_current {s : Sched} (h : SchedInv s) {i : ℕ} (hr : s.stateOf i = .ready) :
    i ≠ s.current := by
  rintro rfl
  rcases h.current with hc | hc
  · exact absurd (hr.symm.trans hc) (by decide)
  · exact absurd (hr.symm.trans hc) (by decide)

/-- **A switch brings a waiting slot closer**, or makes it run. -/
theorem switchTo_wait {s : Sched} (h : SchedInv s) {i : ℕ} (hi : i < maxTasks)
    (hr : s.stateOf i = .ready) (esp : ℕ) :
    ((switchTo s.pickNext esp s).stateOf i = .ready ∧
      (switchTo s.pickNext esp s).waitRank i + 1 ≤ s.waitRank i ∧
      (switchTo s.pickNext esp s).slotDistance i < s.slotDistance i) ∨
    (switchTo s.pickNext esp s).stateOf i = .running := by
  have hne := h.ne_current hr
  obtain ⟨d, h1, hd, hpick, hrun⟩ := pickNext_within h.current_lt hi hne hr
  have hmove : (s.current + d) % maxTasks ≠ s.current := by
    have hlt := s.slotDistance_lt i
    have hc := h.current_lt
    simp only [maxTasks] at *
    omega
  rw [hpick, switchTo_of_ne s esp hmove, switched_stateOf]
  by_cases hi' : i = (s.current + d) % maxTasks
  · exact Or.inr (if_pos hi')
  · left
    have hdist := slotDistance_forward (t := s.switched ((s.current + d) % maxTasks) esp) h1 hd rfl
    -- the distance is not used up, since the slot is not the one switched to
    have hpos : 1 ≤ s.slotDistance i - d := by
      rw [← hdist]
      exact slotDistance_pos (Nat.mod_lt _ (by decide)) hi hi'
    refine ⟨?_, ?_, ?_⟩
    · rw [if_neg hi', if_neg fun hc => hne hc.1, hr]
    · have hq := h.quantum_pos
      unfold waitRank
      rw [hdist, show (s.switched ((s.current + d) % maxTasks) esp).quantumLeft =
        taskQuantum from rfl]
      simp only [taskQuantum]
      omega
    · rw [hdist]
      omega

/-! ## Every step -/

/-- The ticks that an operation counts for. -/
def SchedOp.ticks (op : SchedOp) : ℕ := if op.isTick then 1 else 0

section Runs

variable {η : Type} {A : HeapApi η} {taskExitAddr : ℕ} {op : SchedOp} {p q : Sched × η} {i : ℕ}

/-- What an operation does for a slot that waits: the slot goes on waiting, the rank pays for the
tick, and if the current slot moves, it moves closer; or the slot runs. -/
structure StillWaiting (i : ℕ) (op : SchedOp) (s t : Sched) : Prop where
  ready : t.stateOf i = .ready
  rank : t.waitRank i + op.ticks ≤ s.waitRank i
  closer : t.current ≠ s.current → t.slotDistance i < s.slotDistance i

/-- An operation that moves neither the current slot nor the quantum. -/
theorem StillWaiting.of_same {s t : Sched} (hop : op.ticks = 0) (hr : t.stateOf i = .ready)
    (hc : t.current = s.current) (hq : t.quantumLeft = s.quantumLeft) : StillWaiting i op s t := by
  refine ⟨hr, ?_, fun hne => absurd hc hne⟩
  unfold waitRank slotDistance
  rw [hop, hc, hq, Nat.add_zero]

/-- The tick of a slot that waits. -/
theorem schedulerTick_wait {s : Sched} (h : SchedInv s) (hi : i < maxTasks)
    (hr : s.stateOf i = .ready) (esp : ℕ) (hp : η) :
    StillWaiting i (.tick esp) s (schedulerTick A esp s hp).1 ∨
      (schedulerTick A esp s hp).1.stateOf i = .running := by
  have hinv := h.reap A hp
  have hready : (reap A s hp).1.stateOf i = .ready := by
    rw [reap_stateOf_of_not _ (not_reapable_of_ne (by rw [hr]; decide)), hr]
  have hcur := reap_current A s hp
  have hquantum := reap_quantumLeft A s hp
  rw [schedulerTick_of_enabled A h.enabled]
  generalize (reap A s hp).1 = r at hinv hready hcur hquantum
  have hdist : r.slotDistance i = s.slotDistance i := by
    unfold slotDistance
    rw [hcur]
  have hrank : r.waitRank i = s.waitRank i := by
    unfold waitRank
    rw [hdist, hquantum]
  simp only
  split_ifs with hq
  · refine Or.inl ⟨hready, ?_, fun hne => absurd hcur hne⟩
    rw [← hrank]
    unfold waitRank
    simp only [SchedOp.ticks, SchedOp.isTick, if_true]
    change (r.slotDistance i - 1) * taskQuantum + (r.quantumLeft - 1) + 1 ≤ _
    omega
  · rcases switchTo_wait hinv hi hready esp with ⟨h1, h2, h3⟩ | hrun
    · exact Or.inl ⟨h1, hrank ▸ h2, fun _ => hdist ▸ h3⟩
    · exact Or.inr hrun

/-- **Every operation but the kill of the waiting task** lets it wait on or run. -/
theorem SchedStep.wait (h : SchedInv p.1) (hs : SchedStep A taskExitAddr op p q)
    (hi : i < maxTasks) (hr : p.1.stateOf i = .ready) (hk : op ≠ .kill i) :
    StillWaiting i op p.1 q.1 ∨ q.1.stateOf i = .running := by
  cases hs with
  | create name entry s hp =>
    left
    rcases taskCreate_sched_cases A taskExitAddr name entry s hp
      with e | ⟨slot, sp, stack, hslot, e⟩
    · rw [e]
      exact .of_same rfl hr rfl rfl
    · have hne : i ≠ slot := by
        rintro rfl
        exact absurd (hr.symm.trans (findSlot_some hslot).2.2) (by decide)
      rw [e]
      exact .of_same rfl ((setTask_stateOf _ _ _ _).trans ((if_neg hne).trans hr)) rfl rfl
  | kill id s hp =>
    left
    have hne : i ≠ id := fun e => hk (by rw [e])
    unfold taskKill
    split_ifs
    · exact .of_same rfl hr rfl rfl
    · exact .of_same rfl hr rfl rfl
    · exact .of_same rfl ((setState_stateOf _ _ _ _).trans ((if_neg hne).trans hr)) rfl rfl
  | exit s hp hc =>
    left
    exact .of_same rfl ((setState_stateOf _ _ _ _).trans ((if_neg (h.ne_current hr)).trans hr))
      rfl rfl
  | yield esp s hp =>
    unfold taskYield
    split_ifs
    · exact Or.inl (.of_same rfl hr rfl rfl)
    · rcases switchTo_wait h hi hr esp with ⟨h1, h2, h3⟩ | hrun
      · exact Or.inl ⟨h1, (Nat.le_add_right _ 1).trans h2, fun _ => h3⟩
      · exact Or.inr hrun
  | tick esp s hp => exact schedulerTick_wait h hi hr esp hp

/-- A slot that waits has at least one tick left to pay with. -/
theorem SchedOp.ticks_le_waitRank {s : Sched} (op : SchedOp) (h : SchedInv s) (i : ℕ) :
    op.ticks ≤ s.waitRank i := by
  have hq := h.quantum_pos
  unfold SchedOp.ticks waitRank
  split_ifs <;> omega

/-- A run of `n` ticks with no kill of task `i`, which is ready in every state but the last. -/
def Waits (A : HeapApi η) (taskExitAddr i n : ℕ) : Sched × η → Sched × η → Prop :=
  CountedRun (fun op p q => SchedStep A taskExitAddr op p q ∧ op ≠ .kill i) SchedOp.ticks
    (fun p => p.1.stateOf i = .ready) n

/-- **No runnable task starves.** From any reachable state in which task `i` is ready, along any
run without a kill of `i`: until `i` runs it stays ready, and the ticks so far together with its
rank stay within `(maxTasks - 1) * taskQuantum`; so do the ticks up to and including the step that
makes it run. Every step that moves the current slot and does not make `i` run moves it closer. -/
theorem no_starvation {h₀ : η} (h : SchedReach A taskExitAddr h₀ p) (hi : i < maxTasks)
    (hr : p.1.stateOf i = .ready) {n : ℕ} (hw : Waits A taskExitAddr i n p q) :
    ((q.1.stateOf i = .ready ∧ n + q.1.waitRank i ≤ (maxTasks - 1) * taskQuantum) ∨
      (q.1.stateOf i = .running ∧ n ≤ (maxTasks - 1) * taskQuantum)) ∧
    (q.1.stateOf i = .ready → ∀ op r, SchedStep A taskExitAddr op q r → op ≠ .kill i →
      (r.1.stateOf i = .ready ∧
        (r.1.current ≠ q.1.current → r.1.slotDistance i < q.1.slotDistance i)) ∨
      r.1.stateOf i = .running) := by
  have hinv := SchedReach.inv h
  have hmax := waitRank_le hinv i
  have hstep : ∀ (op : SchedOp) (s t : Sched × η),
      (SchedInv s.1 ∧ (s.1.stateOf i = .ready ∨ s.1.stateOf i = .running)) →
      s.1.stateOf i = .ready → (SchedStep A taskExitAddr op s t ∧ op ≠ .kill i) →
      (SchedInv t.1 ∧ (t.1.stateOf i = .ready ∨ t.1.stateOf i = .running)) ∧
        ((t.1.stateOf i = .ready ∧ t.1.waitRank i + op.ticks ≤ s.1.waitRank i) ∨
          (¬ t.1.stateOf i = .ready ∧ op.ticks ≤ s.1.waitRank i)) := by
    intro op s t hs hready hst
    rcases hst.1.wait hs.1 hi hready hst.2 with hwait | hruns
    · exact ⟨⟨hst.1.inv hs.1, Or.inl hwait.ready⟩, Or.inl ⟨hwait.ready, hwait.rank⟩⟩
    · exact ⟨⟨hst.1.inv hs.1, Or.inr hruns⟩,
        Or.inr ⟨by rw [hruns]; decide, op.ticks_le_waitRank hs.1 i⟩⟩
  obtain ⟨⟨hqinv, hstate⟩, hcount⟩ :=
    hw.le_rank (fun p => p.1.waitRank i) hstep ⟨hinv, Or.inl hr⟩ hr
  refine ⟨?_, fun hready op r hs hk => ?_⟩
  · rcases hcount with ⟨hready, hle⟩ | ⟨hnot, hle⟩
    · exact Or.inl ⟨hready, hle.trans hmax⟩
    · exact Or.inr ⟨hstate.resolve_left hnot, hle.trans hmax⟩
  · rcases hs.wait hqinv hi hready hk with hwait | hruns
    · exact Or.inl ⟨hwait.ready, hwait.closer⟩
    · exact Or.inr hruns

end Runs

/-- The task just created, through one tick. -/
theorem no_starvation_oneTask : ∃ q, Waits (heapApi bumpBacking) 0x100000 1 1 oneTask q ∧
    ((q.1.stateOf 1 = .ready ∧ 1 + q.1.waitRank 1 ≤ (maxTasks - 1) * taskQuantum) ∨
      (q.1.stateOf 1 = .running ∧ 1 ≤ (maxTasks - 1) * taskQuantum)) := by
  have hr : oneTask.1.stateOf 1 = .ready := by decide +kernel
  have hw : Waits (heapApi bumpBacking) 0x100000 1 1 oneTask
      (schedulerTick (heapApi bumpBacking) 0 oneTask.1 oneTask.2) := by
    have h0 : Waits (heapApi bumpBacking) 0x100000 1 0 oneTask oneTask := .refl oneTask
    exact h0.tail hr (a := SchedOp.tick 0) ⟨.tick 0 oneTask.1 oneTask.2, SchedOp.noConfusion⟩
  exact ⟨_, hw, (no_starvation schedReach_oneTask (by decide) hr hw).1⟩

end JarvisOS
