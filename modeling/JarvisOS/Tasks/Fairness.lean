import JarvisOS.Foundations.Traces
import JarvisOS.Tasks.Starvation

/-!
# The scheduler is fair

Two tasks that can run throughout a run take turns, whatever the others do: between two turns of one
the other has exactly one. `turnDistance` is how far the scheduler has to go to a slot's next turn;
every switch takes the same number off it for all slots that can run, and refills it for the slot
whose turn it is (`switchTo_turn`). Which of two slots comes first is then a potential for their
turns (`SchedStep.turns`), and with what is left of the quantum one for their ticks
(`SchedStep.ticks`).
-/

namespace JarvisOS

open Foundations Sched

namespace Sched

/-- How far the scheduler has to go to the next turn of slot `i`. -/
def turnDistance (s : Sched) (i : ℕ) : ℕ := if i = s.current then maxTasks else s.slotDistance i

/-- Slot `i` has its next turn before slot `j`. -/
def Before (s : Sched) (i j : ℕ) : Prop := s.turnDistance i < s.turnDistance j

instance (s : Sched) (i j : ℕ) : Decidable (s.Before i j) := inferInstanceAs (Decidable (_ < _))

theorem turnDistance_congr {s t : Sched} (h : t.current = s.current) (i : ℕ) :
    t.turnDistance i = s.turnDistance i := by
  unfold turnDistance slotDistance
  rw [h]

/-- Slots have different turns. -/
theorem turnDistance_injective {s : Sched} {i j : ℕ} (hc : s.current < maxTasks) (hi : i < maxTasks)
    (hj : j < maxTasks) (h : s.turnDistance i = s.turnDistance j) : i = j := by
  unfold turnDistance slotDistance at h
  simp only [maxTasks] at *
  split_ifs at h <;> omega

end Sched

variable {s t : Sched} {i j : ℕ}

/-- A slot that can run and is not current is ready. -/
theorem SchedInv.ready_of_runnable (h : SchedInv s) (hi : i < maxTasks) (hr : s.Runnable i)
    (hne : i ≠ s.current) :
    s.stateOf i = .ready :=
  hr.resolve_right (h.others i hi hne)

/-- **A switch** goes the same way for all slots that can run, and no further than to the turn of
any of them. -/
theorem switchTo_turn (h : SchedInv s) (hi : i < maxTasks) (hr : s.Runnable i) (hne : i ≠ s.current)
    (esp : ℕ) :
    ∃ next, next < maxTasks ∧ next ≠ s.current ∧ switchTo s.pickNext esp s = s.switched next esp ∧
      ∀ k < maxTasks, s.Runnable k → s.turnDistance next ≤ s.turnDistance k ∧
        (s.switched next esp).turnDistance k =
          if k = next then maxTasks else s.turnDistance k - s.turnDistance next := by
  obtain ⟨d, h1, hd, hpick, -⟩ :=
    pickNext_within h.current_lt hi hne (h.ready_of_runnable hi hr hne)
  have hlt := s.slotDistance_lt i
  have hc := h.current_lt
  have hmove : (s.current + d) % maxTasks ≠ s.current := by
    simp only [maxTasks] at *
    omega
  have hturn : s.turnDistance ((s.current + d) % maxTasks) = d := by
    unfold turnDistance slotDistance
    rw [if_neg hmove]
    simp only [maxTasks] at *
    omega
  refine ⟨_, Nat.mod_lt _ (by decide), hmove, ?_, fun k hk hrk => ?_⟩
  · rw [hpick, switchTo_of_ne s esp hmove]
  rw [hturn]
  -- the current slot has its next turn after all others
  have hle : d ≤ s.turnDistance k := by
    unfold turnDistance
    split_ifs with hkc
    · omega
    · obtain ⟨d', h1', hd', hpick', -⟩ := pickNext_within hc hk hkc (h.ready_of_runnable hk hrk hkc)
      rw [hpick] at hpick'
      have hsame : (s.current + d) % maxTasks =
        (s.current + d') % maxTasks := by exact_mod_cast hpick'
      simp only [maxTasks] at *
      omega
  refine ⟨hle, ?_⟩
  have hcur : (s.switched ((s.current + d) % maxTasks) esp).current =
    (s.current + d) % maxTasks := rfl
  unfold turnDistance slotDistance at *
  rw [hcur]
  simp only [maxTasks] at *
  split_ifs at * <;> omega

/-! ## What a step does -/

/-- The current slot, the slices of the slots that can run and the count of switches are kept. -/
structure SameTurns (s t : Sched) : Prop where
  current : t.current = s.current
  slices : ∀ k, s.Runnable k → (t.tasks k).slices = (s.tasks k).slices
  switches : t.switches = s.switches

theorem SameTurns.refl (s : Sched) : SameTurns s s := ⟨rfl, fun _ _ => rfl, rfl⟩

theorem SameTurns.setState (s : Sched) (i : ℕ) (st : TaskState) : SameTurns s (s.setState i st) :=
  ⟨rfl, fun k _ => by rw [setState_tasks], rfl⟩

section Steps

variable {η : Type} {A : HeapApi η} {taskExitAddr : ℕ} {op : SchedOp} {p q : Sched × η}

theorem SameTurns.reap (s : Sched) (h : η) : SameTurns s (Sched.reap A s h).1 := by
  rw [reap_fst]
  refine ⟨rfl, fun k _ => ?_, rfl⟩
  simp only
  split_ifs <;> rfl

/-- Slots that can run are not reaped. -/
theorem Sched.Runnable.reap {s : Sched} {k : ℕ} (hr : s.Runnable k) (h : η) :
    (Sched.reap A s h).1.Runnable k := by
  have hnot : ¬ s.Reapable k := not_reapable_of_ne fun hd => by
    rcases hr with hr | hr <;> rw [hd] at hr <;> cases hr
  unfold Runnable
  rwa [reap_stateOf_of_not A hnot]

/-- **A step** lets the current task go on or switches; only a tick at the end of the quantum and
`task_yield` switch. -/
theorem SchedStep.shape (h : SchedInv p.1) (hs : SchedStep A taskExitAddr op p q) :
    (SameTurns p.1 q.1 ∧ q.1.quantumLeft + op.ticks = p.1.quantumLeft) ∨
    ∃ r esp, SameTurns p.1 r ∧ SchedInv r ∧ r.quantumLeft = p.1.quantumLeft ∧
      (∀ k, p.1.Runnable k → r.Runnable k) ∧ q.1 = switchTo r.pickNext esp r ∧
      (op.isTick = true → p.1.quantumLeft = 1) ∧ (op.isTick = false → ∃ esp, op = .yield esp) := by
  cases hs with
  | create name entry s hp =>
    refine Or.inl ?_
    rcases taskCreate_sched_cases A taskExitAddr name entry s hp
      with e | ⟨slot, sp, stack, hslot, e⟩
    · rw [e]
      exact ⟨.refl _, rfl⟩
    · rw [e]
      refine ⟨⟨rfl, fun k hk => ?_, rfl⟩, rfl⟩
      have hne : k ≠ slot := by
        rintro rfl
        rcases hk with hk | hk <;> rw [(findSlot_some hslot).2.2] at hk <;> cases hk
      rw [setTask_tasks_of_ne _ _ hne]
  | kill id s hp =>
    refine Or.inl ?_
    unfold taskKill
    split_ifs
    · exact ⟨.refl _, rfl⟩
    · exact ⟨.refl _, rfl⟩
    · exact ⟨.setState _ _ _, rfl⟩
  | exit s hp hc => exact Or.inl ⟨.setState _ _ _, rfl⟩
  | yield esp s hp =>
    refine Or.inr
      ⟨s, esp, .refl _, h, rfl, fun _ hk => hk, ?_, fun e => absurd e Bool.false_ne_true,
      fun _ => ⟨esp, rfl⟩⟩
    have henabled : s.enabled = true := h.enabled
    simp [taskYield, henabled]
  | tick esp s hp =>
    have hinv : SchedInv s := h
    have hsame := SameTurns.reap (A := A) s hp
    have hquantum := reap_quantumLeft A s hp
    have hrun := fun k (hk : s.Runnable k) => hk.reap (A := A) hp
    have hreap := hinv.reap A hp
    rw [schedulerTick_of_enabled A hinv.enabled]
    generalize (reap A s hp).1 = r at hsame hquantum hrun hreap
    by_cases hq : r.quantumLeft > 1
    · refine Or.inl ⟨?_, ?_⟩
      · simp only [if_pos hq]
        exact ⟨hsame.current, hsame.slices, hsame.switches⟩
      · simp only [if_pos hq, SchedOp.ticks, SchedOp.isTick, if_true]
        omega
    · have hpos := hinv.quantum_pos
      refine Or.inr ⟨r, esp, hsame, hreap, hquantum, hrun, if_neg hq, fun _ => ?_,
        fun e => absurd e.symm Bool.false_ne_true⟩
      simp only
      omega

/-! ## Turns -/

/-- The step gives slot `i` its turn. -/
def turn (i : ℕ) (x : Transition SchedOp (Sched × η)) : ℕ :=
  if x.target.1.current = i ∧ x.source.1.current ≠ i then 1 else 0

/-- Slot `j` comes first. -/
def behind (i j : ℕ) (s : Sched) : ℕ := if s.Before i j then 0 else 1

theorem Sched.turnDistance_pos {s : Sched} (h : SchedInv s) (hi : i < maxTasks) :
    1 ≤ s.turnDistance i := by
  unfold turnDistance
  split_ifs with hc
  · decide
  · exact slotDistance_pos h.current_lt hi hc

theorem Sched.turnDistance_le (s : Sched) (i : ℕ) : s.turnDistance i ≤ maxTasks := by
  unfold turnDistance
  split_ifs
  · exact le_rfl
  · exact (s.slotDistance_lt i).le

/-- **Of two slots that can run, a switch goes to the one that comes first**, or leaves both where
they are. -/
theorem switchTo_behind (h : SchedInv s) (hi : i < maxTasks) (hj : j < maxTasks) (hne : i ≠ j)
    (hri : s.Runnable i) (hrj : s.Runnable j) (esp : ℕ) :
    ∃ next, next ≠ s.current ∧ switchTo s.pickNext esp s = s.switched next esp ∧
      (next = i → behind i j s = 0 ∧ behind i j (s.switched next esp) = 1) ∧
      (next = j → behind i j s = 1 ∧ behind i j (s.switched next esp) = 0) ∧
      (next ≠ i → next ≠ j → behind i j (s.switched next esp) = behind i j s) := by
  obtain ⟨k, hk, hrk, hkc⟩ : ∃ k < maxTasks, s.Runnable k ∧ k ≠ s.current := by
    by_cases hic : i = s.current
    · exact ⟨j, hj, hrj, fun hjc => hne (hic.trans hjc.symm)⟩
    · exact ⟨i, hi, hri, hic⟩
  obtain ⟨next, hn, hnc, hswitch, hturn⟩ := switchTo_turn h hk hrk hkc esp
  obtain ⟨hlei, hnexti⟩ := hturn i hi hri
  obtain ⟨hlej, hnextj⟩ := hturn j hj hrj
  have hpos := turnDistance_pos h hn
  have hmaxi := s.turnDistance_le i
  have hmaxj := s.turnDistance_le j
  have hdiff : s.turnDistance i ≠ s.turnDistance j :=
    fun e => hne (turnDistance_injective h.current_lt hi hj e)
  refine ⟨next, hnc, hswitch, fun e => ?_, fun e => ?_, fun e1 e2 => ?_⟩
  · subst e
    rw [if_pos rfl] at hnexti
    rw [if_neg hne.symm] at hnextj
    refine ⟨if_pos (lt_of_le_of_ne hlej hdiff), if_neg ?_⟩
    unfold Before
    omega
  · subst e
    rw [if_neg hne] at hnexti
    rw [if_pos rfl] at hnextj
    refine ⟨if_neg (not_lt.2 hlei), if_pos ?_⟩
    unfold Before
    omega
  · rw [if_neg (Ne.symm e1)] at hnexti
    rw [if_neg (Ne.symm e2)] at hnextj
    refine if_congr ?_ rfl rfl
    unfold Before
    rw [hnexti, hnextj]
    omega

theorem behind_congr {r : Sched} (h : r.current = s.current) (i j : ℕ) :
    behind i j r = behind i j s := by
  refine if_congr ?_ rfl rfl
  unfold Before
  rw [turnDistance_congr h, turnDistance_congr h]

/-- The current slot is behind all others. -/
theorem behind_current (s : Sched) (j : ℕ) : behind s.current j s = 1 := by
  refine if_neg (not_lt.2 ?_)
  rw [turnDistance.eq_1 s s.current, if_pos rfl]
  exact s.turnDistance_le j

theorem behind_of_current (h : SchedInv s) (hi : i < maxTasks) (hne : i ≠ s.current) :
    behind i s.current s = 0 := by
  refine if_pos
    (lt_of_le_of_ne ?_ fun e => hne (turnDistance_injective h.current_lt hi h.current_lt e))
  rw [turnDistance.eq_1 s s.current, if_pos rfl]
  exact s.turnDistance_le i

/-- **Turns alternate.** -/
theorem SchedStep.turns (h : SchedInv p.1) (hs : SchedStep A taskExitAddr op p q)
    (hi : i < maxTasks)
    (hj : j < maxTasks) (hne : i ≠ j) (hri : p.1.Runnable i) (hrj : p.1.Runnable j) :
    turn j ⟨op, p, q⟩ + behind i j q.1 = turn i ⟨op, p, q⟩ + behind i j p.1 := by
  rcases hs.shape h with ⟨hsame, -⟩ | ⟨r, esp, hsame, hinv, -, hrun, e, -⟩
  · have hno : ∀ k, turn k ⟨op, p, q⟩ = 0 := fun k => if_neg fun ht => ht.2 (hsame.current ▸ ht.1)
    rw [hno, hno, behind_congr hsame.current]
  · obtain ⟨next, hnc, hswitch, hfirst, hsecond, hother⟩ :=
      switchTo_behind hinv hi hj hne (hrun i hri) (hrun j hrj) esp
    rw [hswitch] at e
    rw [hsame.current] at hnc
    have hturn : ∀ k, turn k ⟨op, p, q⟩ = if next = k then 1 else 0 := fun k => by
      unfold turn
      simp only [e, show (r.switched next esp).current = next from rfl]
      by_cases hk : next = k
      · rw [if_pos ⟨hk, fun hc => hnc (hk.trans hc.symm)⟩, if_pos hk]
      · rw [if_neg fun ht => hk ht.1, if_neg hk]
    rw [hturn, hturn, e, ← behind_congr hsame.current i j]
    by_cases hni : next = i
    · obtain ⟨h0, h1⟩ := hfirst hni
      rw [if_pos hni, if_neg (fun hnj => hne (hni.symm.trans hnj)), h0, h1]
    by_cases hnj : next = j
    · obtain ⟨h1, h0⟩ := hsecond hnj
      rw [if_pos hnj, if_neg hni, h0, h1]
    · rw [if_neg hni, if_neg hnj, hother hni hnj]

/-! ## Ticks -/

/-- The step is a tick that slot `i` spends. -/
def tickOf (i : ℕ) (x : Transition SchedOp (Sched × η)) :
    ℕ := if x.source.1.current = i then x.label.ticks else 0

/-- The ticks that slot `i` has still to get before slot `j` is even with it. -/
def credit (i j : ℕ) (s : Sched) : ℕ :=
  if s.current = i then s.quantumLeft
  else if s.current = j then taskQuantum - s.quantumLeft
  else if behind i j s = 0 then taskQuantum else 0

theorem credit_le {s : Sched} (h : SchedInv s) (i j : ℕ) : credit i j s ≤ taskQuantum := by
  have := h.quantum_le
  unfold credit
  split_ifs <;> omega

/-- **Ticks are shared**, as long as neither of the two yields. -/
theorem SchedStep.sharedTicks (h : SchedInv p.1) (hs : SchedStep A taskExitAddr op p q)
    (hi : i < maxTasks)
    (hj : j < maxTasks) (hne : i ≠ j) (hri : p.1.Runnable i) (hrj : p.1.Runnable j)
    (hyield : ∀ esp, op = .yield esp → p.1.current ≠ i ∧ p.1.current ≠ j) :
    tickOf i ⟨op, p, q⟩ + credit i j q.1 = tickOf j ⟨op, p, q⟩ + credit i j p.1 := by
  have hq := h.quantum_le
  have htick : ∀ k, tickOf k ⟨op, p, q⟩ = if p.1.current = k then op.ticks else 0 := fun k => rfl
  rw [htick, htick]
  rcases hs.shape h with ⟨hsame, hleft⟩ | ⟨r, esp, hsame, hinv, -, hrun, e, hlast, hyields⟩
  · unfold credit
    rw [hsame.current, behind_congr hsame.current]
    by_cases hci : p.1.current = i
    · rw [if_pos hci, if_pos hci, if_pos hci, if_neg fun hcj => hne (hci.symm.trans hcj)]
      omega
    by_cases hcj : p.1.current = j
    · rw [if_neg hci, if_neg hci, if_pos hcj, if_pos hcj, if_neg hci, if_pos hcj]
      omega
    · rw [if_neg hci, if_neg hci, if_neg hcj, if_neg hcj, if_neg hci, if_neg hcj]
  · obtain ⟨next, hnc, hswitch, hfirst, hsecond, hother⟩ :=
      switchTo_behind hinv hi hj hne (hrun i hri) (hrun j hrj) esp
    rw [hswitch] at e
    have hcredit : credit i j q.1 = if behind i j p.1 = 0 then taskQuantum else 0 := by
      rw [e, ← behind_congr hsame.current i j]
      unfold credit
      rw [show (r.switched next esp).current = next from rfl,
        show (r.switched next esp).quantumLeft = taskQuantum from rfl, Nat.sub_self]
      by_cases hni : next = i
      · rw [if_pos hni, (hfirst hni).1, if_pos rfl]
      by_cases hnj : next = j
      · rw [if_neg hni, if_pos hnj, (hsecond hnj).1, if_neg Nat.one_ne_zero]
      · rw [if_neg hni, if_neg hnj, hother hni hnj]
    -- the current slot switches at the end of its quantum
    have hend : p.1.current = i ∨ p.1.current = j → op.ticks = 1 ∧ p.1.quantumLeft = 1 :=
      fun hc => by
      have htick : op.isTick = true := by
        by_contra hno
        obtain ⟨esp, hop⟩ := hyields (by simpa using hno)
        exact hc.elim (hyield esp hop).1 (hyield esp hop).2
      exact ⟨if_pos htick, hlast htick⟩
    rw [hcredit]
    unfold credit
    by_cases hci : p.1.current = i
    · obtain ⟨h1, h2⟩ := hend (Or.inl hci)
      have hbehind : behind i j p.1 = 1 := hci ▸ behind_current p.1 j
      rw [if_pos hci, if_pos hci, if_neg fun hcj => hne (hci.symm.trans hcj), hbehind,
        if_neg Nat.one_ne_zero, h1, h2]
    by_cases hcj : p.1.current = j
    · obtain ⟨h1, h2⟩ := hend (Or.inr hcj)
      have hbehind : behind i j p.1 = 0 := hcj ▸ behind_of_current h hi (Ne.symm hci)
      rw [if_neg hci, if_pos hcj, if_neg hci, if_pos hcj, hbehind, if_pos rfl, h1, h2]
      rfl
    · rw [if_neg hci, if_neg hci, if_neg hcj, if_neg hcj]

/-! ## Slices -/

/-- **The table counts the turns.** -/
theorem SchedStep.slices (h : SchedInv p.1) (hs : SchedStep A taskExitAddr op p q)
    (hi : i < maxTasks)
    (hj : j < maxTasks) (hne : i ≠ j) (hri : p.1.Runnable i) (hrj : p.1.Runnable j) :
    (q.1.tasks i).slices ≡ (p.1.tasks i).slices + turn i ⟨op, p, q⟩ [MOD 2 ^ 32] := by
  rcases hs.shape h with ⟨hsame, -⟩ | ⟨r, esp, hsame, hinv, -, hrun, e, -⟩
  · have hno : turn i ⟨op, p, q⟩ = 0 := if_neg fun ht => ht.2 (hsame.current ▸ ht.1)
    rw [hno, hsame.slices i hri, Nat.add_zero]
  · obtain ⟨next, hnc, hswitch, -⟩ := switchTo_behind hinv hi hj hne (hrun i hri) (hrun j hrj) esp
    rw [hswitch] at e
    rw [hsame.current] at hnc
    have hslices : (q.1.tasks i).slices =
        if i = next then u32 ((r.tasks i).slices + 1) else (r.tasks i).slices := by rw [e]; rfl
    have hcur : q.1.current = next := by rw [e]; rfl
    rw [hslices, hsame.slices i hri]
    unfold turn
    simp only [hcur]
    by_cases hin : i = next
    · rw [if_pos hin, if_pos ⟨hin.symm, fun hc => hnc (hin.symm.trans hc.symm)⟩]
      exact Nat.mod_modEq _ _
    · rw [if_neg hin, if_neg fun ht => hin ht.1.symm, Nat.add_zero]

/-! ## Runs -/

variable (A taskExitAddr) in
/-- A step after which two slots can run. -/
def Beside (i j : ℕ) (op : SchedOp) (p q : Sched × η) : Prop :=
  SchedStep A taskExitAddr op p q ∧ q.1.Runnable i ∧ q.1.Runnable j

/-- Neither slot yields in the step. -/
def NoYield (i j : ℕ) (x : Transition SchedOp (Sched × η)) : Prop :=
  ∀ esp, x.label = .yield esp → x.source.1.current ≠ i ∧ x.source.1.current ≠ j

/-- **The scheduler is fair.** From every reachable state, along every run in which two tasks can
run, whatever is created, killed, exits or yields beside them: their numbers of turns differ by at
most one, and `slices` counts the turns; and if neither of the two yields, their numbers of ticks
differ by at most a quantum. -/
theorem round_robin_fair {h₀ : η} (h : SchedReach A taskExitAddr h₀ p) (hi : i < maxTasks)
    (hj : j < maxTasks)
    (hne : i ≠ j) (hri : p.1.Runnable i) (hrj : p.1.Runnable j)
      {xs : List (Transition SchedOp (Sched × η))}
    (htr : Trace (Beside A taskExitAddr i j) xs p q) :
    (xs.map (turn i)).sum ≤ (xs.map (turn j)).sum + 1 ∧
      (xs.map (turn j)).sum ≤ (xs.map (turn i)).sum + 1 ∧
    (q.1.tasks i).slices ≡ (p.1.tasks i).slices + (xs.map (turn i)).sum [MOD 2 ^ 32] ∧
    ((∀ x ∈ xs, NoYield i j x) →
      (xs.map (tickOf i)).sum ≤ (xs.map (tickOf j)).sum + taskQuantum ∧
      (xs.map (tickOf j)).sum ≤ (xs.map (tickOf i)).sum + taskQuantum) := by
  have hinv : SchedInv p.1 := SchedReach.inv h
  have hkeep : ∀ (op : SchedOp) (s t : Sched × η),
    (SchedInv s.1 ∧ s.1.Runnable i ∧ s.1.Runnable j) →
      Beside A taskExitAddr i j op s t → SchedInv t.1 ∧ t.1.Runnable i ∧ t.1.Runnable j :=
    fun op s t hs hst => ⟨hst.1.inv hs.1, hst.2⟩
  have hbehind : ∀ s, behind i j s ≤ 1 := fun s => by
    unfold behind
    split_ifs <;> decide
  have hturns := htr.balance (Q := fun _ => True) (f := turn j) (g := turn i)
    (φ := fun p => behind i j p.1)
    (fun op s t hs hst _ => hkeep op s t hs hst)
    (fun op s t hs hst _ => hst.1.turns hs.1 hi hj hne hs.2.1 hs.2.2) (fun _ _ => trivial)
      ⟨hinv, hri, hrj⟩
  have hslices := htr.account (Q := fun _ => True) (f := turn i)
    (v := fun p => (p.1.tasks i).slices) (n := 2 ^ 32)
    (fun op s t hs hst _ => hkeep op s t hs hst)
    (fun op s t hs hst _ => hst.1.slices hs.1 hi hj hne hs.2.1 hs.2.2) (fun _ _ => trivial)
      ⟨hinv, hri, hrj⟩
  have hp := hbehind p.1
  have hq := hbehind q.1
  refine ⟨by omega, by omega, hslices, fun hyield => ?_⟩
  have hticks := htr.balance (f := tickOf i) (g := tickOf j) (φ := fun p => credit i j p.1)
    (fun op s t hs hst _ => hkeep op s t hs hst)
    (fun op s t hs hst hx => hst.1.sharedTicks hs.1 hi hj hne hs.2.1 hs.2.2 hx) hyield
      ⟨hinv, hri, hrj⟩
  have hq' := (htr.invariant (Q := fun _ => True) (fun op s t hs hst _ => hkeep op s t hs hst)
    (fun _ _ => trivial) ⟨hinv, hri, hrj⟩).1
  have hcredit := credit_le hinv i j
  have hcredit' := credit_le hq' i j
  exact ⟨by omega, by omega⟩

end Steps

/-- The kernel and the task just created, through one tick. -/
theorem round_robin_fair_oneTask :
    ∃ q xs, Trace (Beside (heapApi bumpBacking) 0x100000 0 1) xs oneTask q ∧
    xs.length = 1 ∧ (xs.map (tickOf 0)).sum ≤ (xs.map (tickOf 1)).sum + taskQuantum := by
  have htr : Trace (Beside (heapApi bumpBacking) 0x100000 0 1)
      ([] ++ [⟨.tick 0, oneTask, schedulerTick (heapApi bumpBacking) 0 oneTask.1 oneTask.2⟩])
        oneTask
      (schedulerTick (heapApi bumpBacking) 0 oneTask.1 oneTask.2) :=
    .snoc (.nil _) ⟨.tick 0 oneTask.1 oneTask.2, by decide +kernel, by decide +kernel⟩
  obtain ⟨-, -, -, hticks⟩ := round_robin_fair schedReach_oneTask (i := 0) (j := 1) (by decide)
    (by decide)
    (by decide) (by decide +kernel) (by decide +kernel) htr
  refine ⟨_, _, htr, rfl, (hticks fun x hx => ?_).1⟩
  obtain rfl := List.mem_singleton.1 hx
  exact fun _ => nofun

end JarvisOS
