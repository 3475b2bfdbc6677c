import JarvisOS.Heap.Accesses
import JarvisOS.Heap.GrowHarm
import JarvisOS.Tasks.Stacks

/-!
# Heap calls under preemption

Task 0 calls `kmalloc` and `kfree` with interrupts enabled, and the timer interrupt itself calls
`kfree` for the stacks of dead tasks. `preempted` runs a call action by action and lets one tick in
after the first `k` of them. Whether a tick can do harm is a matter of the state before the call
(`HeapCall.Clear`): of the dead tasks' stacks and of the block list. Where it cannot, the call
returns wherever the tick comes, and the heap stays safe over all runs of such calls; where it can,
there is a moment at which it does (`preemption_safe`). One such moment is that of
`preemption_unsafe`, when a tick merges blocks under the call's hands.
-/

namespace JarvisOS

open Foundations Prog Sched

variable {σ : Type} {B : Backing σ}

/-! ## Calls and ticks -/

/-- What the heap is called for. `spawn` is `task_create` once it has found its slot. -/
inductive HeapCall
  | kmalloc (n : ℕ)
  | kfree (ptr : ℕ)
  | spawn (slot : ℕ) (name : List Char) (entry : ℕ)

namespace HeapCall

/-- The heap code of the call. -/
def code : HeapCall → HeapM ℕ
  | kmalloc n => JarvisOS.kmalloc n
  | kfree ptr => JarvisOS.kfree ptr
  | spawn _ _ _ => JarvisOS.kmalloc taskStackSize

/-- The live allocations after the heap code has returned `r`. -/
def account (r : ℕ) : HeapCall → Set (ℕ × ℕ) → Set (ℕ × ℕ)
  | kmalloc n, live => if r = 0 then live else insert (r, n) live
  | kfree ptr, live => {b ∈ live | b.1 ≠ ptr}
  | spawn _ _ _, live => if r = 0 then live else insert (r, taskStackSize) live

end HeapCall

/-- The call after its heap code has returned `r`. -/
def HeapCall.finish (B : Backing σ) (taskExitAddr r : ℕ) (c : HeapCall) (p : Sched × HeapSystem σ) :
    Option (Sched × HeapSystem σ) :=
  let q : HeapSystem σ := ⟨p.2.heap, c.account r p.2.live⟩
  match c with
  | .spawn slot name entry =>
    if r = 0 then some (p.1, q)
    else
      let f := pushFrame (heapApi B) taskExitAddr entry r (some q)
      f.2.map fun q => (p.1.setTask slot (created slot f.1 r name), q)
  | _ => some (p.1, q)

/-- The heap's state as a part of the whole. -/
def heapPart : Part (Sched × HeapSystem σ) (HeapState σ) where
  get p := p.2.heap
  put s p := (p.1, ⟨s, p.2.live⟩)
  get_put _ _ := rfl
  put_put _ _ _ := rfl
  put_get _ := rfl

/-- The timer interrupt. -/
def tick (B : Backing σ) (esp : ℕ) (p : Sched × HeapSystem σ) : Option (Sched × HeapSystem σ) :=
  let r := schedulerTick (heapApi B) esp p.1 (some p.2)
  r.2.map fun q => (r.1, q)

section Calls

variable (B : Backing σ) (taskExitAddr : ℕ)

/-- A call that no tick interrupts. -/
def called (c : HeapCall) (p : Sched × HeapSystem σ) : Option (Sched × HeapSystem σ) :=
  (run (heapPart.lift (heapAct B)) c.code p).bind fun r => c.finish B taskExitAddr r.1 r.2

/-- A call with a tick after the first `k` actions of its heap code. -/
def preempted (esp k : ℕ) (c : HeapCall) (p : Sched × HeapSystem σ) :
    Option (Sched × HeapSystem σ) :=
  (runInterrupted (heapPart.lift (heapAct B)) (tick B esp) k c.code p).bind fun r =>
    c.finish B taskExitAddr r.1 r.2

theorem preempted_of_runInterrupted {esp k r : ℕ} {c : HeapCall} {p v : Sched × HeapSystem σ}
    (h : runInterrupted (heapPart.lift (heapAct B)) (tick B esp) k c.code p = some (r, v)) :
    preempted B taskExitAddr esp k c p = c.finish B taskExitAddr r v := by
  rw [preempted, h, Option.bind_some]

/-- `spawn` is `task_create`. -/
theorem called_spawn {p : Sched × HeapSystem σ} {slot : ℕ} (hslot : p.1.findSlot = some slot)
    (name : List Char) (entry : ℕ) :
    called B taskExitAddr (.spawn slot name entry) p =
      (taskCreate (heapApi B) taskExitAddr name entry p.1 (some p.2)).2.2.map fun q =>
        ((taskCreate (heapApi B) taskExitAddr name entry p.1 (some p.2)).2.1, q) := by
  unfold called
  rw [heapPart.run_lift, taskCreate, hslot]
  rcases hrun : run (heapAct B) (kmalloc taskStackSize) p.2.heap with _ | ⟨r, t⟩
  · have hnone : (heapApi B).kmalloc taskStackSize (some p.2) = (0, none) := by
      simp only [heapApi, Option.bind_some, hrun, Option.map_none]
    simp only [HeapCall.code, heapPart, hrun, hnone, if_true, Option.map_none, Option.bind_none]
  · simp only [HeapCall.code, heapPart, hrun, heapApi_kmalloc hrun, Option.map_some,
      Option.bind_some, HeapCall.finish]
    by_cases hr : r = 0
    · rw [if_pos hr, if_pos hr]
      rfl
    · rw [if_neg hr, if_neg hr]
      rfl

end Calls

/-! ## Ticks -/

/-- The scheduler and the heap satisfy their invariants; `L₀` are the live allocations that are not
stacks. -/
structure SystemInv (L₀ : Set (ℕ × ℕ)) (p : Sched × HeapSystem σ) : Prop where
  sched : SchedInv p.1
  owned : StackInv HeapOk liveOf L₀ p.1 (some p.2)

theorem SystemInv.heapInv {L₀ : Set (ℕ × ℕ)} {p : Sched × HeapSystem σ} (h : SystemInv L₀ p) :
    ∃ l, HeapInv p.2 l := by
  obtain ⟨q, l, e, hl⟩ := h.owned.heap
  obtain rfl := Option.some.inj e
  exact ⟨l, hl⟩

/-- **A tick returns and keeps the invariants.** -/
theorem SystemInv.tick {L₀ : Set (ℕ × ℕ)} {p : Sched × HeapSystem σ} (h : SystemInv L₀ p)
    (esp : ℕ) :
    ∃ u, tick B esp p = some u ∧ u.1 = (schedulerTick (heapApi B) esp p.1 (some p.2)).1 ∧
      SystemInv L₀ u := by
  have hsched := h.sched.schedulerTick (heapApi B) esp (some p.2)
  have hstacks := h.owned.schedulerTick (heapApi_spec (B := B)) h.sched esp
  unfold JarvisOS.tick
  generalize schedulerTick (heapApi B) esp p.1 (some p.2) = r at hsched hstacks
  obtain ⟨s, o⟩ := r
  obtain ⟨q, l, rfl, hl⟩ := hstacks.heap
  exact ⟨(s, q), rfl, rfl, hsched, hstacks⟩

/-- A tick leaves an unused slot unused. -/
theorem schedulerTick_unused {η : Type} (A : HeapApi η) {s : Sched} (h : SchedInv s) {i : ℕ}
    (hi : s.stateOf i = .unused) (esp : ℕ) (hp : η) :
    (schedulerTick A esp s hp).1.stateOf i = .unused := by
  have hreap : (reap A s hp).1.stateOf i = .unused := by
    rw [reap_stateOf, hi, ite_self]
  have hinv := h.reap A hp
  rw [schedulerTick_of_enabled A h.enabled]
  generalize (reap A s hp).1 = r at hreap hinv
  simp only
  split_ifs
  · exact hreap
  · exact (switchTo_pickNext_of_idle hinv (by rw [hreap]; decide) esp).trans hreap

/-- The table after a tick does not depend on the heap. -/
theorem schedulerTick_fst {η θ : Type} (A : HeapApi η) (A' : HeapApi θ) {s : Sched}
    (h : s.enabled = true) (esp : ℕ) (hp : η) (hp' : θ) :
    (schedulerTick A esp s hp).1 = (schedulerTick A' esp s hp').1 := by
  rw [schedulerTick_of_enabled A h, schedulerTick_of_enabled A' h]
  simp only [reap_fst]

/-! ## What a tick does to the heap -/

/-- The stacks that `reap` frees, in the order in which it does so. -/
def deadStacks (s : Sched) : List ℕ :=
  ((List.range' 1 (maxTasks - 1)).filter fun i => s.Reapable i).map fun i => (s.tasks i).stackBase

/-- The heap after the loop of `reap`. -/
theorem foldl_reapSlot_snd {η : Type} (A : HeapApi η) {l : List ℕ} (hl : l.Nodup) {s : Sched}
    (hbase : ∀ i ∈ l, s.Reapable i → (s.tasks i).stackBase ≠ 0) (h : η) :
    (l.foldl (reapSlot A) (s, h)).2 =
      ((l.filter fun i => s.Reapable i).map fun i => (s.tasks i).stackBase).foldl
        (fun h d => (A.kfree d h).2) h := by
  induction l generalizing s h with
  | nil => rfl
  | cons i l ih =>
    obtain ⟨hi, hl⟩ := List.nodup_cons.1 hl
    rw [List.foldl_cons]
    by_cases hr : s.Reapable i
    · -- the slots that are left are as they were
      have hne : ∀ j ∈ l, j ≠ i := fun j hj e => hi (e ▸ hj)
      have hsame : ∀ j ∈ l, (s.setTask i (reaped (s.tasks i))).Reapable j ↔ s.Reapable j :=
        fun j hj => by simp [Reapable, setTask_stateOf, hne j hj]
      have htask : ∀ j ∈ l, (s.setTask i (reaped (s.tasks i))).tasks j = s.tasks j :=
        fun j hj => setTask_tasks_of_ne s _ (hne j hj)
      rw [reapSlot_of_reapable A hr, if_pos (hbase i List.mem_cons_self hr),
        ih hl fun j hj hrj => by
          rw [htask j hj]
          exact hbase j (List.mem_cons_of_mem i hj) ((hsame j hj).1 hrj),
        List.filter_cons_of_pos (by simpa using hr), List.map_cons, List.foldl_cons,
        List.filter_congr fun j hj => decide_eq_decide.2 (hsame j hj)]
      refine congrArg (fun D => List.foldl _ _ D) (List.map_congr_left fun j hj => ?_)
      rw [htask j (List.mem_of_mem_filter hj)]
    · rw [reapSlot_of_not_reapable A hr, List.filter_cons_of_neg (by simpa using hr)]
      exact ih hl (fun j hj => hbase j (List.mem_cons_of_mem i hj)) h

/-- Freeing one payload after the other through the heap's interface. -/
theorem foldl_kfree (D : List ℕ) (h : HeapState σ) (live : Set (ℕ × ℕ)) :
    D.foldl (fun o d => ((heapApi B).kfree d o).2) (some ⟨h, live⟩) =
      (reaping B D h).map fun t => (⟨t, {b ∈ live | b.1 ∉ D}⟩ : HeapSystem σ) := by
  have hnone : ∀ D : List ℕ, D.foldl (fun o d => ((heapApi B).kfree d o).2) none = none := by
    intro D
    induction D with
    | nil => rfl
    | cons d D ih => exact ih
  induction D generalizing h live with
  | nil => simp [reaping, reapCode]
  | cons d D ih =>
    rw [List.foldl_cons, reaping, reapCode, run_bind]
    rcases hrun : run (heapAct B) (kfree d) h with _ | ⟨r, t⟩
    · have : (heapApi B).kfree d (some ⟨h, live⟩) = (0, none) := by
        simp only [heapApi, Option.bind_some, hrun, Option.map_none]
      rw [this, hnone]
      rfl
    · rw [heapApi_kfree hrun, HeapSystem.released, ih]
      have : ∀ b : ℕ × ℕ, (b.1 ≠ d ∧ b.1 ∉ D) ↔ b.1 ∉ d :: D := fun b => by
        rw [List.mem_cons, not_or]
      simp only [Option.bind_some, reaping, Set.mem_ofPred_eq, and_assoc, this]

/-- **A tick frees the dead stacks.** -/
theorem tick_eq {s : Sched} (he : s.enabled = true)
    (hbase : ∀ i, 1 ≤ i → i < maxTasks → s.Reapable i → (s.tasks i).stackBase ≠ 0) (esp : ℕ)
    (q : HeapSystem σ) (h : HeapState σ) (live : Set (ℕ × ℕ)) :
    tick B esp (s, ⟨h, live⟩) = (reaping B (deadStacks s) h).map fun t =>
      ((schedulerTick (heapApi B) esp s (some q)).1, ⟨t, {b ∈ live | b.1 ∉ deadStacks s}⟩) := by
  have hreap : (reap (heapApi B) s (some ⟨h, live⟩)).2 =
      (reaping B (deadStacks s) h).map fun t => ⟨t, {b ∈ live | b.1 ∉ deadStacks s}⟩ := by
    rw [← foldl_kfree]
    exact foldl_reapSlot_snd (heapApi B) List.nodup_range' (fun i hi =>
      hbase i (mem_slots.1 hi).1 (mem_slots.1 hi).2) _
  unfold tick
  rw [schedulerTick_fst (heapApi B) (heapApi B) he esp (some q) (some ⟨h, live⟩)]
  rw [schedulerTick_of_enabled (heapApi B) he]
  simp only [hreap, Option.map_map]
  rfl

/-- The state after a tick, but for the heap's variables and memory. -/
def ticked (B : Backing σ) (esp : ℕ) (p : Sched × HeapSystem σ) : Sched × HeapSystem σ :=
  ((schedulerTick (heapApi B) esp p.1 (some p.2)).1,
    ⟨p.2.heap, {b ∈ p.2.live | b.1 ∉ deadStacks p.1}⟩)

namespace SystemInv

variable {L₀ : Set (ℕ × ℕ)} {p : Sched × HeapSystem σ}

/-- Stacks are live allocations. -/
theorem stackOf_mem (h : SystemInv L₀ p) {i : ℕ} (hi : Owns p.1 i) : stackOf p.1 i ∈ p.2.live :=
  (h.owned.live_eq _).2 (Or.inr ⟨i, hi, rfl⟩)

/-- No stack starts where an allocation that is no stack does. -/
theorem stackBase_ne (h : SystemInv L₀ p) {b : ℕ × ℕ} (hb : b ∈ L₀) {i : ℕ} (hi : Owns p.1 i) :
    (p.1.tasks i).stackBase ≠ b.1 := by
  obtain ⟨l, hl⟩ := h.heapInv
  intro e
  have hlive : b ∈ p.2.live := (h.owned.live_eq b).2 (Or.inl hb)
  have hsame := hl.accounts.unique _ (h.stackOf_mem hi) b hlive e
  exact (h.owned.fresh i hi).2 (hsame ▸ hb)

/-- A dead stack is that of a slot in use. -/
theorem exists_owner {d : ℕ} (hd : d ∈ deadStacks p.1) :
    ∃ i, Owns p.1 i ∧ (p.1.tasks i).stackBase = d := by
  obtain ⟨i, hi, rfl⟩ := List.mem_map.1 hd
  obtain ⟨hi, hr⟩ := List.mem_filter.1 hi
  exact ⟨i, StackInv.owns_of_reapable (mem_slots.1 hi) (of_decide_eq_true hr), rfl⟩

theorem live_of_dead (h : SystemInv L₀ p) {d : ℕ} (hd : d ∈ deadStacks p.1) :
    ∃ n, (d, n) ∈ p.2.live := by
  obtain ⟨i, hi, rfl⟩ := exists_owner hd
  exact ⟨_, h.stackOf_mem hi⟩

theorem nodup_deadStacks (h : SystemInv L₀ p) : (deadStacks p.1).Nodup := by
  refine (List.nodup_map_iff_inj_on ((List.nodup_range').filter _)).2 fun i hi j hj e => ?_
  obtain ⟨hi, hri⟩ := List.mem_filter.1 hi
  obtain ⟨hj, hrj⟩ := List.mem_filter.1 hj
  exact h.owned.distinct i j (StackInv.owns_of_reapable (mem_slots.1 hi) (of_decide_eq_true hri))
    (StackInv.owns_of_reapable (mem_slots.1 hj) (of_decide_eq_true hrj)) e

/-- What a tick does, whatever the heap is like at the time. -/
theorem tick_put (h : SystemInv L₀ p) (esp : ℕ) (t : HeapState σ) :
    JarvisOS.tick B esp (heapPart.put t p) =
      (reaping B (deadStacks p.1) t).map fun v => heapPart.put v (ticked B esp p) :=
  tick_eq h.sched.enabled (fun i h1 h2 hr =>
    (h.owned.fresh i (StackInv.owns_of_reapable ⟨h1, h2⟩ hr)).1) esp p.2 t p.2.live

end SystemInv

/-! ## Calls keep the invariants -/

/-- What the callers ask for: requests up to the size of the window, `kfree` of live pointers that
are no task's stack, and new tasks in the first free slot. -/
def HeapCall.Requested (p : Sched × HeapSystem σ) : HeapCall → Prop
  | kmalloc n => 1 ≤ n ∧ n ≤ heapMax
  | kfree ptr => (∃ b ∈ p.2.live, b.1 = ptr) ∧ ∀ i, Owns p.1 i → (p.1.tasks i).stackBase ≠ ptr
  | spawn slot _ _ => p.1.findSlot = some slot

/-- The call is possible where `L₀` are the live allocations that are not stacks. -/
structure HeapCall.Possible (L₀ : Set (ℕ × ℕ)) (s : Sched) (c : HeapCall) : Prop where
  kmalloc : ∀ n, c = .kmalloc n → 1 ≤ n ∧ n ≤ heapMax
  kfree : ∀ ptr, c = .kfree ptr → ∃ b ∈ L₀, b.1 = ptr
  spawn : ∀ slot name entry, c = .spawn slot name entry →
    1 ≤ slot ∧ slot < maxTasks ∧ s.stateOf slot = .unused

/-- The heap code of the call has returned `r`, where `live` were the live allocations. -/
def HeapCall.Served (live : Set (ℕ × ℕ)) (r : ℕ) (t : HeapState σ) : HeapCall → Prop
  | kmalloc n => Allotted live n r t
  | kfree ptr => ∃ l, HeapInv ⟨t, {b ∈ live | b.1 ≠ ptr}⟩ l
  | spawn _ _ _ => Allotted live taskStackSize r t

theorem SystemInv.possible {L₀ : Set (ℕ × ℕ)} {p : Sched × HeapSystem σ} (h : SystemInv L₀ p)
    {c : HeapCall} (hc : c.Requested p) : c.Possible L₀ p.1 := by
  refine ⟨?_, ?_, ?_⟩
  · rintro n rfl
    exact hc
  · rintro ptr rfl
    obtain ⟨⟨b, hb, hptr⟩, hstacks⟩ := hc
    refine ⟨b, ?_, hptr⟩
    rcases (h.owned.live_eq b).1 hb with hb | ⟨i, hi, rfl⟩
    · exact hb
    · exact absurd hptr (hstacks i hi)
  · rintro slot name entry rfl
    exact findSlot_some hc

namespace SystemInv

variable {L₀ : Set (ℕ × ℕ)} {p : Sched × HeapSystem σ}

/-- **The heap code of a call returns**, if no tick interrupts it. -/
theorem returns_code (h : SystemInv L₀ p) {c : HeapCall} (hc : c.Possible L₀ p.1) :
    Returns (heapAct B) c.code p.2.heap fun r t => c.Served p.2.live r t := by
  obtain ⟨l, hl⟩ := h.heapInv
  cases c with
  | kmalloc n =>
    obtain ⟨h1, h2⟩ := hc.kmalloc n rfl
    exact hl.returns_kmalloc h1 h2
  | kfree ptr =>
    obtain ⟨b, hb, rfl⟩ := hc.kfree ptr rfl
    have hlive : b ∈ p.2.live := (h.owned.live_eq b).2 (Or.inl hb)
    obtain ⟨pre, x, post, rfl, hx, -, hp⟩ := HeapInv.exists_block hl hlive
    obtain ⟨m, t, hrun, -⟩ := runs_kfree (B := B) hl.tiled hx
    rw [← hp] at hrun
    obtain ⟨-, l', hnext⟩ := HeapInv.kfree (B := B) hl hlive hrun.1
    exact hrun.returns ⟨l', hnext⟩
  | spawn slot name entry => exact hl.returns_kmalloc (by decide) (by decide)

/-- A new task's stack is filled and handed over to its slot. -/
theorem adopt (taskExitAddr entry : ℕ) (name : List Char) {slot r : ℕ}
    (h : SystemInv (insert (r, taskStackSize) L₀) p) (h1 : 1 ≤ slot) (h2 : slot < maxTasks)
    (h3 : p.1.stateOf slot = .unused) (hr : r ≠ 0) (hL : (r, taskStackSize) ∉ L₀) :
    let f := pushFrame (heapApi B) taskExitAddr entry r (some p.2)
    ∃ v, (f.2.map fun q => (p.1.setTask slot (created slot f.1 r name), q)) = some v ∧
      SystemInv L₀ v := by
  obtain ⟨hok, hlive⟩ := StackInv.pushFrame_spec (heapApi_spec (B := B)) taskExitAddr entry
    h.owned.heap ((h.owned.live_eq _).2 (Or.inl (Set.mem_insert _ _)))
  have hfilled := h.owned.withHeap hok hlive
  generalize pushFrame (heapApi B) taskExitAddr entry r (some p.2) = f at hok hfilled
  obtain ⟨sp, o⟩ := f
  obtain ⟨q, l, rfl, hl⟩ := hok
  exact ⟨_, rfl, h.sched.setTask_created h1 h3 sp r name, hfilled.adopt h1 h2 h3 hr hL⟩

/-- A request for memory that has been served. -/
theorem allotted (h : SystemInv L₀ p) {n r : ℕ} {t : HeapState σ} (ht : Allotted p.2.live n r t) :
    SystemInv (if r = 0 then L₀ else insert (r, n) L₀)
      (p.1, ⟨t, if r = 0 then p.2.live else insert (r, n) p.2.live⟩) := by
  obtain ⟨⟨l, hl⟩, hfresh⟩ := ht
  refine ⟨h.sched, ?_⟩
  by_cases hr : r = 0
  · simp only [hr, if_true] at hl ⊢
    exact h.owned.withHeap ⟨_, l, rfl, hl⟩ rfl
  · simp only [hr, if_false] at hl ⊢
    exact h.owned.allocate ⟨_, l, rfl, hl⟩ (hfresh hr n) rfl

/-- **The rest of a call keeps the invariants.** -/
theorem finish (h : SystemInv L₀ p) {c : HeapCall} (hc : c.Possible L₀ p.1) {r : ℕ}
    {t : HeapState σ} (ht : c.Served p.2.live r t) (taskExitAddr : ℕ) :
    ∃ v L, c.finish B taskExitAddr r (heapPart.put t p) = some v ∧ SystemInv L v := by
  cases c with
  | kmalloc n => exact ⟨_, _, rfl, h.allotted ht⟩
  | kfree ptr =>
    obtain ⟨l, hl⟩ := ht
    obtain ⟨b, hb, rfl⟩ := hc.kfree ptr rfl
    exact ⟨_, _, rfl, h.sched, h.owned.forget ⟨_, l, rfl, hl⟩ rfl fun i hi => h.stackBase_ne hb hi⟩
  | spawn slot name entry =>
    obtain ⟨h1, h2, h3⟩ := hc.spawn slot name entry rfl
    have hnext := h.allotted ht
    by_cases hr : r = 0
    · exact ⟨_, _, if_pos hr, hnext⟩
    · rw [if_neg hr, if_neg hr] at hnext
      have hL : (r, taskStackSize) ∉ L₀ := fun hmem =>
        ht.2 hr taskStackSize ((h.owned.live_eq _).2 (Or.inl hmem))
      obtain ⟨v, hv, hinv⟩ := hnext.adopt (B := B) taskExitAddr entry name h1 h2 h3 hr hL
      refine ⟨v, L₀, (if_neg hr).trans ?_, hinv⟩
      simp only [HeapCall.account, if_neg hr]
      exact hv

/-- A call that is not interrupted keeps the invariants. -/
theorem called (h : SystemInv L₀ p) {c : HeapCall} (hc : c.Possible L₀ p.1) (taskExitAddr : ℕ) :
    ∃ v L, called B taskExitAddr c p = some v ∧ SystemInv L v := by
  obtain ⟨r, t, hrun, hserved⟩ := h.returns_code (B := B) hc
  unfold JarvisOS.called
  rw [heapPart.run_lift, show run (heapAct B) c.code (heapPart.get p) = some (r, t) from hrun]
  exact h.finish hc hserved taskExitAddr

end SystemInv

/-! ## Calls that a tick does not disturb -/

/-- The heap can grow for a block of `size` bytes: the ceiling allows it and the backing grants all
the pages. -/
def Grows (B : Backing σ) (size : ℕ) (s : HeapState σ) : Prop :=
  s.brk + growthPages size * pageSize ≤ heapStart + heapMax ∧
    B.grants (growthPages size) s.brk s.env = growthPages size

/-- No tick can do harm: either there is no dead task's stack to free, or the call is `kfree` of a
block between blocks in use, or it asks for memory and `ClearAlloc` holds of the block list. -/
def HeapCall.Clear (B : Backing σ) (p : Sched × HeapSystem σ) (c : HeapCall) : Prop :=
  deadStacks p.1 = [] ∨
    match c with
    | kfree ptr => Seg.NoFreeNeighbours ((Block.freeAt ptr p.2.heap.blocks).map Block.seg)
    | kmalloc n =>
      ClearAlloc (align8 n) (deadStacks p.1) p.2.heap.blocks (Grows B (align8 n) p.2.heap)
    | spawn _ _ _ =>
      ClearAlloc (align8 taskStackSize) (deadStacks p.1) p.2.heap.blocks
        (Grows B (align8 taskStackSize) p.2.heap)

namespace SystemInv

variable {L₀ : Set (ℕ × ℕ)} {p : Sched × HeapSystem σ}

/-- The heap as it is before a call. -/
theorem calling (h : SystemInv L₀ p) :
    Calling p.2.live p.2.heap.brk (deadStacks p.1) p.2.heap.blocks p.2.heap := by
  obtain ⟨l, hl⟩ := h.heapInv
  obtain ⟨hs, hlinked⟩ := hl.sound
  rw [← hl.tiled.blocks] at hs hlinked
  exact ⟨hl.tiled.framed, rfl, hs, hlinked,
    hs.stacks_of_live (fun d hd => h.live_of_dead hd) h.nodup_deadStacks⟩

/-- A growth that succeeds was possible. -/
theorem grows (h : SystemInv L₀ p) {n : ℕ} (h1 : 1 ≤ n) (h2 : n ≤ heapMax) {g : HeapState σ}
    (hrun : run (heapAct B) (growMapping (wantBytes (align8 n))) p.2.heap = some (1, g)) :
    Grows B (align8 n) p.2.heap := by
  obtain ⟨l, hl⟩ := h.heapInv
  obtain ⟨-, -, hsize⟩ := payloadSize_align8 h1 (h2.trans_lt (by decide))
  by_contra hno
  rw [Grows, ← mapPages_fst] at hno
  exact absurd (growMapping_eq_zero hl.tiled hsize (growthInWindow_of_le hl.tiled h2) hno hrun)
    Nat.one_ne_zero

/-- **The heap code of a call returns wherever the tick comes.** -/
theorem interrupted_code (h : SystemInv L₀ p) {c : HeapCall} (hc : c.Possible L₀ p.1)
    (hclear : c.Clear B p) :
    Interrupted (heapAct B) (reaping B (deadStacks p.1)) c.code p.2.heap fun r t =>
      c.Served {b ∈ p.2.live | b.1 ∉ deadStacks p.1} r t := by
  have hcalling := h.calling
  by_cases hD : deadStacks p.1 = []
  · have hlive : {b ∈ p.2.live | b.1 ∉ deadStacks p.1} = p.2.live := by simp [hD]
    rw [hlive]
    refine (h.returns_code (B := B) hc).interrupted fun s => ?_
    rw [hD]
    rfl
  · replace hclear := hclear.resolve_left hD
    cases c with
    | kmalloc n =>
      obtain ⟨h1, h2⟩ := hc.kmalloc n rfl
      exact hcalling.interrupted_kmalloc hD h1 h2 (fun g hg => h.grows h1 h2 hg) hclear
    | kfree ptr =>
      obtain ⟨b, hb, rfl⟩ := hc.kfree ptr rfl
      have hlive : b ∈ p.2.live := (h.owned.live_eq b).2 (Or.inl hb)
      obtain ⟨d, hd, hptr, hused, -, hpos⟩ := hcalling.sound.exists_block hlive
      have hnot : b.1 ∉ deadStacks p.1 := fun hmem => by
        obtain ⟨i, hi, e⟩ := exists_owner hmem
        exact h.stackBase_ne hb hi e
      rw [← hptr] at hclear hnot
      have := interrupted_kfree (B := B) hcalling.framed hcalling.brk hcalling.sound
        hcalling.linked hcalling.used hd hused hpos hnot hclear
      rw [hptr] at this
      exact this.mono fun r t ht => ht.2
    | spawn slot name entry =>
      exact hcalling.interrupted_kmalloc hD (by decide) (by decide)
        (fun g hg => h.grows (by decide) (by decide) hg) hclear

/-- **A call with a tick in it keeps the invariants.** -/
theorem preempted (h : SystemInv L₀ p) {c : HeapCall} (hc : c.Possible L₀ p.1)
    (hclear : c.Clear B p) (taskExitAddr esp k : ℕ) :
    ∃ v L, preempted B taskExitAddr esp k c p = some v ∧ SystemInv L v := by
  obtain ⟨u, hu, hfst, hinv⟩ := h.tick (B := B) esp
  obtain ⟨r, t, hrun, hserved⟩ := h.interrupted_code hc hclear k
  obtain ⟨v, -, rfl⟩ : ∃ v, reaping B (deadStacks p.1) p.2.heap = some v ∧
      heapPart.put v (ticked B esp p) = u :=
    Option.map_eq_some_iff.1 ((h.tick_put (B := B) esp p.2.heap).symm.trans hu)
  have hslots : c.Possible L₀ (heapPart.put v (ticked B esp p)).1 := by
    refine ⟨hc.kmalloc, hc.kfree, fun slot name entry hs => ?_⟩
    obtain ⟨h1, h2, h3⟩ := hc.spawn slot name entry hs
    exact ⟨h1, h2, schedulerTick_unused (heapApi B) h.sched h3 esp (some p.2)⟩
  unfold JarvisOS.preempted
  rw [heapPart.runInterrupted_lift (h.tick_put (B := B) esp),
    show runInterrupted (heapAct B) (reaping B (deadStacks p.1)) k c.code (heapPart.get p) =
      some (r, t) from hrun]
  exact hinv.finish hslots hserved taskExitAddr

end SystemInv

/-! ## Calls that a tick does harm to -/

/-- The words of a new task's frame are pushed below `sp`. -/
theorem foldl_push_heap (words : List ℕ) (sp : ℕ) (q : HeapSystem σ) :
    ∃ m : Mem, (words.foldl (fun p v => push (heapApi B) v p) (sp, some q)).2 =
      some ⟨q.heap.setMem m, q.live⟩ ∧ ∀ b, b + 4 * words.length ≤ sp → sp < 2 ^ 32 →
        ∀ a, a < b ∨ sp ≤ a → m a = q.heap.mem a := by
  induction words generalizing sp q with
  | nil => exact ⟨q.heap.mem, rfl, fun _ _ _ _ _ => rfl⟩
  | cons v words ih =>
    obtain ⟨m, hm, hframe⟩ := ih (sub32 sp 4)
      ⟨q.heap.setMem (q.heap.mem.write32 (sub32 sp 4) v), q.live⟩
    have hpush : push (heapApi B) v (sp, some q) =
      (sub32 sp 4, some ⟨q.heap.setMem (q.heap.mem.write32 (sub32 sp 4) v), q.live⟩) := rfl
    rw [List.foldl_cons, hpush]
    refine ⟨m, hm, fun b hb hlt a ha => ?_⟩
    rw [List.length_cons] at hb
    have hsp : sub32 sp 4 = sp - 4 := sub32_of_le (by omega) (by omega)
    rw [hsp] at hframe
    refine (hframe b (by omega) (by omega) a (by omega)).trans ?_
    exact Mem.write32_apply_of_disjoint _ _ (by omega)

/-- A new task's stack is written only inside. -/
theorem pushFrame_heap (taskExitAddr entry r : ℕ) (q : HeapSystem σ) :
    ∃ m : Mem, (pushFrame (heapApi B) taskExitAddr entry r (some q)).2 =
      some ⟨q.heap.setMem m, q.live⟩ ∧
      (r + taskStackSize < 2 ^ 32 → ∀ a, a < r ∨ r + taskStackSize ≤ a → m a = q.heap.mem a) := by
  obtain ⟨m, hm, hframe⟩ := foldl_push_heap (B := B) (initialFrame taskExitAddr entry)
    (u32 (r + taskStackSize)) q
  have hlen : 4 * (initialFrame taskExitAddr entry).length ≤ taskStackSize := by
    simp [initialFrame, taskStackSize]
  unfold pushFrame
  refine ⟨m, hm, fun hlt a ha => ?_⟩
  rw [u32_of_lt hlt] at hframe
  exact hframe r (Nat.add_le_add_left hlen r) hlt a ha

/-- The call returns and leaves the heap safe, with a tick after the first `k` actions of its heap
code. -/
def SafelyPreempted (B : Backing σ) (taskExitAddr esp k : ℕ) (c : HeapCall)
    (p : Sched × HeapSystem σ) : Prop :=
  ∃ v, preempted B taskExitAddr esp k c p = some v ∧ HeapSafe v.2

namespace SystemInv

variable {L₀ : Set (ℕ × ℕ)} {p : Sched × HeapSystem σ} {taskExitAddr esp : ℕ}

/-- What the heap code of the call has left. -/
theorem interrupted_of_safelyPreempted (h : SystemInv L₀ p) {c : HeapCall}
    (hsafe : ∀ k, SafelyPreempted B taskExitAddr esp k c p) :
    Interrupted (heapAct B) (reaping B (deadStacks p.1)) c.code p.2.heap fun r t =>
      ∃ v, c.finish B taskExitAddr r (heapPart.put t (ticked B esp p)) = some v ∧ HeapSafe v.2 := by
  intro k
  obtain ⟨v, hv, hs⟩ := hsafe k
  unfold JarvisOS.preempted at hv
  rw [heapPart.runInterrupted_lift (h.tick_put (B := B) esp)] at hv
  obtain ⟨⟨r, w⟩, hrun, hfinish⟩ := Option.bind_eq_some_iff.1 hv
  obtain ⟨⟨r', t⟩, hcode, e⟩ := Option.map_eq_some_iff.1 hrun
  obtain ⟨rfl, rfl⟩ := Prod.mk.inj e
  exact ⟨r', t, hcode, v, hfinish, hs⟩

/-- **A call that every tick leaves safe is one that no tick can harm**, if the link of the null
pointer is null. -/
theorem clear_of_safelyPreempted (h : SystemInv L₀ p) {c : HeapCall} (hc : c.Possible L₀ p.1)
    (hnull : p.2.heap.mem.read32 8 = 0)
    (hsafe : ∀ k, SafelyPreempted B taskExitAddr esp k c p) : c.Clear B p := by
  by_cases hD : deadStacks p.1 = []
  · exact Or.inl hD
  refine Or.inr ?_
  have hcalling := h.calling
  have hI := h.interrupted_of_safelyPreempted hsafe
  cases c with
  | kmalloc n =>
    obtain ⟨h1, h2⟩ := hc.kmalloc n rfl
    refine hcalling.clear_of_kmalloc hD h1 h2 hnull id (hI.mono fun r t ⟨v, hv, hs⟩ => ?_)
    obtain rfl := Option.some.inj hv
    exact ⟨t.mem, fun _ _ _ => rfl, hs⟩
  | kfree ptr =>
    obtain ⟨b, hb, rfl⟩ := hc.kfree ptr rfl
    have hlive : b ∈ p.2.live := (h.owned.live_eq b).2 (Or.inl hb)
    obtain ⟨d, hd, hptr, hused, -, hpos⟩ := hcalling.sound.exists_block hlive
    have hnot : b.1 ∉ deadStacks p.1 := fun hmem => by
      obtain ⟨i, hi, e⟩ := exists_owner hmem
      exact h.stackBase_ne hb hi e
    change Seg.NoFreeNeighbours ((Block.freeAt b.1 p.2.heap.blocks).map Block.seg)
    rw [← hptr] at hnot hI ⊢
    refine hcalling.apart_of_kfree hD hnull hd hused hpos hnot (hI.mono fun r t ⟨v, hv, hs⟩ => ?_)
    obtain rfl := Option.some.inj hv
    exact hs
  | spawn slot name entry =>
    refine hcalling.clear_of_kmalloc hD (by decide) (by decide) hnull id
      (hI.mono fun r t ⟨v, hv, hs⟩ => ?_)
    by_cases hr : r = 0
    · obtain rfl := Option.some.inj ((if_pos hr).symm.trans hv)
      exact ⟨t.mem, fun _ _ _ => rfl, hs⟩
    · replace hv := (if_neg hr).symm.trans hv
      obtain ⟨m, hm, hframe⟩ := pushFrame_heap (B := B) taskExitAddr entry r
        ⟨t, HeapCall.account r (.spawn slot name entry) {b ∈ p.2.live | b.1 ∉ deadStacks p.1}⟩
      obtain ⟨q, hq, rfl⟩ := Option.map_eq_some_iff.1 hv
      obtain rfl := Option.some.inj (hm.symm.trans hq)
      exact ⟨m, hframe, hs⟩

end SystemInv

/-! ## Runs -/

section Runs

variable (B : Backing σ) (taskExitAddr : ℕ)

/-- One step of the scheduler and the heap together: an operation of the scheduler, a call of the
heap without a tick in between or with one that can do no harm, a write of owners inside their own
payloads, or a change behind the heap. -/
inductive PreemptStep : Sched × HeapSystem σ → Sched × HeapSystem σ → Prop
  | sched {op : SchedOp} {s t : Sched} {q r : HeapSystem σ}
      (h : SchedStep (heapApi B) taskExitAddr op (s, some q) (t, some r)) :
      PreemptStep (s, q) (t, r)
  | call {c : HeapCall} {p v : Sched × HeapSystem σ} (hc : c.Requested p)
      (h : called B taskExitAddr c p = some v) : PreemptStep p v
  | preempted {c : HeapCall} {esp k : ℕ} {p v : Sched × HeapSystem σ} (hc : c.Requested p)
      (hclear : c.Clear B p) (h : preempted B taskExitAddr esp k c p = some v) : PreemptStep p v
  | write {s : Sched} {q : HeapSystem σ} {m : Mem}
      (h : ∀ a, ¬ InOwnPayload q.live a → m a = q.heap.mem a) :
      PreemptStep (s, q) (s, ⟨q.heap.setMem m, q.live⟩)
  | backing {s : Sched} {q : HeapSystem σ} {e : σ} :
      PreemptStep (s, q) (s, ⟨{ q.heap with env := e }, q.live⟩)

/-- The states reached from a successful `heap_init` followed by `scheduler_init`. -/
def PreemptReach : Sched × HeapSystem σ → Prop :=
  Reach (fun p => p.1 = schedulerInit zeroed ∧ HeapStarted B p.2) (PreemptStep B taskExitAddr)

variable {B taskExitAddr} {p v : Sched × HeapSystem σ}

theorem PreemptStep.inv {L₀ : Set (ℕ × ℕ)} (h : SystemInv L₀ p)
    (hs : PreemptStep B taskExitAddr p v) : ∃ L, SystemInv L v := by
  cases hs with
  | @sched op s t q r hs =>
    exact ⟨L₀, SchedStep.inv (p := (s, some q)) h.sched hs,
      SchedStep.stacks (p := (s, some q)) heapApi_spec h.sched h.owned hs⟩
  | call hc hv =>
    obtain ⟨w, L, hw, hinv⟩ := h.called (B := B) (h.possible hc) taskExitAddr
    exact ⟨L, Option.some.inj (hw.symm.trans hv) ▸ hinv⟩
  | @preempted c esp k _ _ hc hclear hv =>
    obtain ⟨w, L, hw, hinv⟩ := h.preempted (h.possible hc) hclear taskExitAddr esp k
    exact ⟨L, Option.some.inj (hw.symm.trans hv) ▸ hinv⟩
  | @write s q m hm =>
    obtain ⟨l, hl⟩ := h.heapInv
    exact ⟨L₀, h.sched, h.owned.withHeap
      ⟨_, l, rfl, HeapInv.write hl hm⟩ rfl⟩
  | @backing s q e =>
    obtain ⟨l, hl⟩ := h.heapInv
    exact ⟨L₀, h.sched, h.owned.withHeap
      ⟨_, l, rfl, HeapInv.backing hl e⟩ rfl⟩

theorem PreemptReach.inv (h : PreemptReach B taskExitAddr p) : ∃ L₀, SystemInv L₀ p := by
  refine Reach.invariant (I := fun p => ∃ L₀, SystemInv L₀ p) h ?_ ?_
  · rintro ⟨s, q⟩ ⟨rfl, hq⟩
    exact ⟨q.live, SchedInv.schedulerInit, StackInv.start ⟨q, _, rfl, HeapInv.started hq⟩ rfl⟩
  · rintro p q - ⟨L₀, hinv⟩ hs
    exact hs.inv hinv

/-- **The heap is safe under preemption.** In every state reached by steps in which ticks interrupt
only calls that they cannot harm, the heap is safe, and the next such call returns and leaves the
heap safe wherever a tick comes. Any other call has a moment at which a tick does it harm, provided
that the link of the null pointer is null. -/
theorem preemption_safe (h : PreemptReach B taskExitAddr p) :
    HeapSafe p.2 ∧ ∀ c : HeapCall, c.Requested p →
      (c.Clear B p → ∀ esp k, SafelyPreempted B taskExitAddr esp k c p) ∧
      (p.2.heap.mem.read32 8 = 0 → ∀ esp, (∀ k, SafelyPreempted B taskExitAddr esp k c p) →
        c.Clear B p) := by
  obtain ⟨L₀, hinv⟩ := h.inv
  obtain ⟨l, hl⟩ := hinv.heapInv
  refine ⟨hl.safe, fun c hc => ⟨fun hclear esp k => ?_, fun hnull esp hsafe => ?_⟩⟩
  · obtain ⟨v, L, hv, hvinv⟩ := hinv.preempted (hinv.possible hc) hclear taskExitAddr esp k
    obtain ⟨l', hl'⟩ := hvinv.heapInv
    exact ⟨v, hv, hl'.safe⟩
  · exact hinv.clear_of_safelyPreempted (hinv.possible hc) hnull hsafe

end Runs

/-! ## A tick that does harm -/

/-- The system of `killedTask`. -/
def killedSystem : Sched × HeapSystem ℕ := (killedTask.1, killedTask.2.getD ⟨freshHeap, ∅⟩)

theorem preemptReach_killedSystem : PreemptReach bumpBacking 0x100000 killedSystem := by
  obtain ⟨q, hq⟩ := Option.isSome_iff_exists.1 (by decide +kernel : oneTask.2.isSome = true)
  have hsystem : killedSystem = ((taskKill 1 oneTask.1).2, q) := by
    rw [killedSystem, killedTask, hq, Option.getD_some]
  have hslot : (schedulerInit zeroed).findSlot = some 1 := by decide
  have hreq : HeapCall.Requested (schedulerInit zeroed, (⟨freshHeap, ∅⟩ : HeapSystem ℕ))
      (.spawn 1 "a".toList 0x2000) := hslot
  have hspawn : called bumpBacking 0x100000 (.spawn 1 "a".toList 0x2000)
      (schedulerInit zeroed, ⟨freshHeap, ∅⟩) = some (oneTask.1, q) := by
    rw [called_spawn bumpBacking 0x100000 hslot]
    unfold oneTask at hq ⊢
    exact congrArg (Option.map fun q => (_, q)) hq
  rw [hsystem]
  exact Reach.next (Reach.next (.start ⟨rfl, heapStarted_freshHeap⟩) (.call hreq hspawn))
    (.sched (.kill 1 oneTask.1 (some q)))

/-- `killedSystem` after two calls `kmalloc(64)`: the dead task's stack, two blocks in use, and the
free rest. -/
def guardedSystem : Sched × HeapSystem ℕ :=
  ((called bumpBacking 0x100000 (.kmalloc 64) killedSystem).bind
    (called bumpBacking 0x100000 (.kmalloc 64))).getD killedSystem

theorem preemptReach_guardedSystem : PreemptReach bumpBacking 0x100000 guardedSystem := by
  obtain ⟨L₀, hinv⟩ := preemptReach_killedSystem.inv
  have hreq : ∀ p : Sched × HeapSystem ℕ, (HeapCall.kmalloc 64).Requested p :=
    fun _ => ⟨by decide, by decide⟩
  obtain ⟨u, L, hu, huinv⟩ := hinv.called (B := bumpBacking) (hinv.possible (hreq _)) 0x100000
  obtain ⟨v, -, hv, -⟩ := huinv.called (B := bumpBacking) (huinv.possible (hreq _)) 0x100000
  rw [guardedSystem, hu, Option.bind_some, hv, Option.getD_some]
  exact Reach.next (Reach.next preemptReach_killedSystem (.call (hreq _) hu)) (.call (hreq _) hv)

theorem requested_guardedSystem {a : ℕ}
    (hmem : ⟨a, 64, false⟩ ∈ guardedSystem.2.heap.blocks)
    (hstacks : ∀ i < maxTasks, (guardedSystem.1.tasks i).stackBase ≠ a + headerSize) :
    (HeapCall.kfree (a + headerSize)).Requested guardedSystem := by
  obtain ⟨L₀, hinv⟩ := preemptReach_guardedSystem.inv
  obtain ⟨n, hn⟩ := hinv.calling.sound.live_of_used (b := ⟨a, 64, false⟩) hmem rfl
  exact ⟨⟨_, hn, rfl⟩, fun i hi => hstacks i hi.2.1⟩

/-- With the dead task still there, `kfree` of the first block behind its stack is safe with a tick
after any of its accesses, and `kfree` of the second one, which lies before the free rest, is
not. -/
theorem preemption_safe_guardedSystem : HeapSafe guardedSystem.2 ∧
    (∀ k, SafelyPreempted bumpBacking 0x100000 0 k (.kfree (heapStart + 8224)) guardedSystem) ∧
    ¬ ∀ k, SafelyPreempted bumpBacking 0x100000 0 k (.kfree (heapStart + 8304)) guardedSystem := by
  obtain ⟨hsafe, hcalls⟩ := preemption_safe preemptReach_guardedSystem
  have hfirst := hcalls _ (requested_guardedSystem (a := heapStart + 8208) (by decide +kernel)
    (by decide +kernel))
  have hsecond := hcalls _ (requested_guardedSystem (a := heapStart + 8288) (by decide +kernel)
    (by decide +kernel))
  refine ⟨hsafe, hfirst.1 (Or.inr ?_) 0, fun hall => ?_⟩
  · change Seg.NoFreeNeighbours _
    unfold Seg.NoFreeNeighbours
    decide +kernel
  · rcases hsecond.2 (by decide +kernel) 0 hall with hD | hapart
    · exact absurd hD (by decide +kernel)
    · change Seg.NoFreeNeighbours _ at hapart
      unfold Seg.NoFreeNeighbours at hapart
      exact absurd hapart (by decide +kernel)

/-- **A tick between the search and the split.** The dead task's stack is the block before the free
one. A tick after the sixth access of `kmalloc(64)`, when the search has judged the free block to
fit, frees the stack and merges the two; `kmalloc` then splits and hands out a block that is no
longer in the list: its payload lies inside the one free block there is. -/
theorem preemption_unsafe : PreemptReach bumpBacking 0x100000 killedSystem ∧
    (HeapCall.kmalloc 64).Requested killedSystem ∧ killedSystem.1.current = 0 ∧
    ∃ v, preempted bumpBacking 0x100000 0 6 (.kmalloc 64) killedSystem = some v ∧
      Visits v.2.heap.mem v.2.heap.head [heapStart] ∧ FreeAt v.2.heap.mem heapStart ∧
      sizeAt v.2.heap.mem heapStart = 65520 ∧ (heapStart + 8224, 64) ∈ v.2.live ∧
      ¬ HeapSafe v.2 := by
  have heval : (runInterrupted (heapPart.lift (heapAct bumpBacking)) (tick bumpBacking 0) 6
      (kmalloc 64) killedSystem).map (fun r => (r.1, r.2.2.heap.head,
        r.2.2.heap.mem.read32 (heapStart + 4), r.2.2.heap.mem.read32 (heapStart + 8),
        r.2.2.heap.mem.read32 (heapStart + 12))) = some
          (heapStart + 8224, heapStart, 65520, 0, 1) := by
    decide +kernel
  obtain ⟨⟨r, s, q⟩, hrun, he⟩ := Option.map_eq_some_iff.1 heval
  simp only [Prod.mk.injEq] at he
  obtain ⟨rfl, hhead, hsize, hnext, hfree⟩ := he
  have hvisits : Visits q.heap.mem q.heap.head [heapStart] := ⟨hhead, by decide, hnext⟩
  have hlive : (heapStart + 8224, 64) ∈ (HeapCall.kmalloc 64).account
    (heapStart + 8224) q.live := by
    rw [HeapCall.account, if_neg (by decide)]
    exact Set.mem_insert _ _
  refine ⟨preemptReach_killedSystem, ⟨by decide, by decide⟩, by decide +kernel,
    (s, ⟨q.heap, (HeapCall.kmalloc 64).account (heapStart + 8224) q.live⟩),
    preempted_of_runInterrupted bumpBacking 0x100000 (c := .kmalloc 64) hrun, hvisits, ?_, hsize,
    hlive, ?_⟩
  · change q.heap.mem.read32 (heapStart + 12) ≠ 0
    rw [hfree]
    exact Nat.one_ne_zero
  · rintro ⟨bs, hbs, hblocks, -⟩
    obtain ⟨hmem, -⟩ := hblocks _ hlive
    rw [hbs.visits.unique hvisits, List.mem_singleton] at hmem
    exact absurd hmem (by decide)

end JarvisOS
