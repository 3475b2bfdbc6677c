import JarvisOS.Tasks.Invariant
import Mathlib.Data.Set.Insert

/-!
# Ownership of task stacks

The scheduler takes a stack from the heap for every task it creates and gives it back when the
slot is reaped. `StackInv` says that the live blocks are those that were live before the scheduler
started together with one stack for each slot `1..maxTasks-1` in use. `logged` records the calls of
`kfree`, so that what `reap` frees can be spoken about.
-/

namespace JarvisOS

open Foundations Sched

/-- A call of `kfree`: the pointer, the heap before the call, and the result. -/
structure FreeCall (η : Type) where
  ptr : ℕ
  before : η
  ret : ℕ

/-- The heap together with a record of the calls of `kfree`. -/
def logged {η : Type} (A : HeapApi η) : HeapApi (η × List (FreeCall η)) where
  kmalloc n h := ((A.kmalloc n h.1).1, (A.kmalloc n h.1).2, h.2)
  kfree p h := ((A.kfree p h.1).1, (A.kfree p h.1).2, ⟨p, h.1, (A.kfree p h.1).1⟩ :: h.2)
  store a v h := (A.store a v h.1, h.2)

/-- The calls of `kfree` that `reap` makes. -/
def reapLog {η : Type} (A : HeapApi η) (s : Sched) (h : η) : List (FreeCall η) :=
  (reap (logged A) s (h, [])).2.2

/-- A slot that holds a stack. -/
def Owns (s : Sched) (i : ℕ) : Prop := 1 ≤ i ∧ i < maxTasks ∧ s.stateOf i ≠ .unused

/-- The stack of slot `i` as a heap block. -/
def stackOf (s : Sched) (i : ℕ) : ℕ × ℕ := ((s.tasks i).stackBase, taskStackSize)

section Ownership

variable {η : Type} {A : HeapApi η} {I : η → Prop} {live : η → Set (ℕ × ℕ)}

/-- **Ownership**: the live blocks are `L₀` and the stacks of the slots in use, all distinct. -/
structure StackInv (I : η → Prop) (live : η → Set (ℕ × ℕ)) (L₀ : Set (ℕ × ℕ)) (s : Sched) (h : η) :
    Prop where
  heap : I h
  live_eq : ∀ b, b ∈ live h ↔ b ∈ L₀ ∨ ∃ i, Owns s i ∧ b = stackOf s i
  fresh : ∀ i, Owns s i → (s.tasks i).stackBase ≠ 0 ∧ stackOf s i ∉ L₀
  distinct : ∀ i j, Owns s i → Owns s j → (s.tasks i).stackBase = (s.tasks j).stackBase → i = j

namespace StackInv

variable {L₀ : Set (ℕ × ℕ)} {s t : Sched} {h : η}

/-- Ownership depends on the slots in use and their stacks. -/
theorem congr (hs : StackInv I live L₀ s h) (ho : ∀ i, Owns t i ↔ Owns s i)
    (hb : ∀ i, Owns s i → (t.tasks i).stackBase = (s.tasks i).stackBase) :
    StackInv I live L₀ t h where
  heap := hs.heap
  live_eq b := by
    rw [hs.live_eq]
    refine or_congr_right (exists_congr fun i => ?_)
    rw [ho]
    refine and_congr_right fun hi => ?_
    unfold stackOf
    rw [hb i hi]
  fresh i hi := by
    have hi' := (ho i).1 hi
    unfold stackOf
    rw [hb i hi']
    exact hs.fresh i hi'
  distinct i j hi hj hij := by
    have hi' := (ho i).1 hi
    have hj' := (ho j).1 hj
    rw [hb i hi', hb j hj'] at hij
    exact hs.distinct i j hi' hj' hij

/-- Nothing is owned before the first task is created. -/
theorem start (hh : I h) (hL : L₀ = live h) : StackInv I live L₀ (schedulerInit zeroed) h where
  heap := hh
  live_eq b := by
    refine ⟨fun hb => Or.inl (hL ▸ hb), fun hb => ?_⟩
    rcases hb with hb | ⟨i, ⟨h1, h2, h3⟩, -⟩
    · exact hL ▸ hb
    · exact absurd (schedulerInit_unused h1) h3
  fresh i hi := absurd (schedulerInit_unused hi.1) hi.2.2
  distinct i _ hi := absurd (schedulerInit_unused hi.1) hi.2.2

/-! ## Giving stacks back -/

/-- A reapable slot owns its stack. -/
theorem owns_of_reapable {i : ℕ} (hi : 1 ≤ i ∧ i < maxTasks) (hr : s.Reapable i) : Owns s i :=
  ⟨hi.1, hi.2, by rw [hr.1]; exact TaskState.noConfusion⟩

theorem reapSlot_of_reapable (hs : StackInv I live L₀ s h) {i : ℕ} (hi : 1 ≤ i ∧ i < maxTasks)
    (hr : s.Reapable i) :
    reapSlot A (s, h) i =
      (s.setTask i (reaped (s.tasks i)), (A.kfree (s.tasks i).stackBase h).2) :=
  (if_pos hr).trans (Prod.ext rfl (if_pos (hs.fresh i (owns_of_reapable hi hr)).1))

/-- The heap and the table after a slot has been given back. -/
theorem release (hA : HeapSpec A I live) (hs : StackInv I live L₀ s h) {i : ℕ} (hi : Owns s i) :
    StackInv I live L₀ (s.setTask i (reaped (s.tasks i))) (A.kfree (s.tasks i).stackBase h).2 := by
  obtain ⟨-, hI, hlive⟩ := hA.kfree h hs.heap (stackOf s i) ((hs.live_eq _).2 (Or.inr ⟨i, hi, rfl⟩))
  have howns : ∀ j, Owns (s.setTask i (reaped (s.tasks i))) j ↔ Owns s j ∧ j ≠ i := by
    intro j
    unfold Owns
    rw [setTask_stateOf]
    by_cases hji : j = i
    · subst hji
      simp [reaped]
    · simp [hji]
  have hbase : ∀ j, j ≠ i → ((s.setTask i (reaped (s.tasks i))).tasks j) = s.tasks j :=
    fun j hj => setTask_tasks_of_ne s _ hj
  refine ⟨hI, fun b => ?_, fun j hj => ?_, fun j k hj hk hjk => ?_⟩
  · change b ∈ live (A.kfree (stackOf s i).1 h).2 ↔ _
    rw [hlive, Set.mem_sdiff, hs.live_eq, Set.mem_singleton_iff]
    constructor
    · rintro ⟨hb | ⟨j, hj, rfl⟩, hne⟩
      · exact Or.inl hb
      · have hji : j ≠ i := fun e => hne (by rw [e])
        refine Or.inr ⟨j, (howns j).2 ⟨hj, hji⟩, ?_⟩
        rw [stackOf, stackOf, hbase j hji]
    · rintro (hb | ⟨j, hj, rfl⟩)
      · refine ⟨Or.inl hb, ?_⟩
        rintro rfl
        exact (hs.fresh i hi).2 hb
      · obtain ⟨hj, hji⟩ := (howns j).1 hj
        rw [stackOf, hbase j hji]
        refine ⟨Or.inr ⟨j, hj, rfl⟩, fun e => hji ?_⟩
        exact hs.distinct j i hj hi (congrArg Prod.fst e)
  · obtain ⟨hj, hji⟩ := (howns j).1 hj
    rw [stackOf, hbase j hji]
    exact hs.fresh j hj
  · obtain ⟨hj, hji⟩ := (howns j).1 hj
    obtain ⟨hk, hki⟩ := (howns k).1 hk
    rw [hbase j hji, hbase k hki] at hjk
    exact hs.distinct j k hj hk hjk

theorem reapSlot (hA : HeapSpec A I live) (hs : StackInv I live L₀ s h) {i : ℕ}
    (hi : 1 ≤ i ∧ i < maxTasks) :
    StackInv I live L₀ (reapSlot A (s, h) i).1 (Sched.reapSlot A (s, h) i).2 := by
  by_cases hr : s.Reapable i
  · rw [hs.reapSlot_of_reapable hi hr]
    exact hs.release hA (owns_of_reapable hi hr)
  · have hstep : Sched.reapSlot A (s, h) i = (s, h) := if_neg hr
    rw [hstep]
    exact hs

theorem foldl_reapSlot (hA : HeapSpec A I live) {l : List ℕ} (hl : ∀ i ∈ l, 1 ≤ i ∧ i < maxTasks)
    (hs : StackInv I live L₀ s h) :
    StackInv I live L₀ (l.foldl (Sched.reapSlot A) (s, h)).1
      (l.foldl (Sched.reapSlot A) (s, h)).2 := by
  induction l generalizing s h with
  | nil => exact hs
  | cons i l ih =>
    exact ih (fun j hj => hl j (List.mem_cons_of_mem i hj))
      (hs.reapSlot hA (hl i List.mem_cons_self))

theorem reap (hA : HeapSpec A I live) (hs : StackInv I live L₀ s h) :
    StackInv I live L₀ (reap A s h).1 (Sched.reap A s h).2 :=
  hs.foldl_reapSlot hA fun _ hi => mem_slots.1 hi

/-! ## The calls of `kfree` -/

/-- A call frees a live stack, succeeds, and is not about the stack of `cur`. -/
def GoodCall (live : η → Set (ℕ × ℕ)) (cur : ℕ) (c : FreeCall η) : Prop :=
  (c.ptr, taskStackSize) ∈ live c.before ∧ c.ret = 1 ∧ c.ptr ≠ cur

/-- Every call of the loop of `reap` is good. -/
theorem foldl_reapSlot_good (hA : HeapSpec A I live) {l : List ℕ}
    (hl : ∀ i ∈ l, 1 ≤ i ∧ i < maxTasks) (hs : StackInv I live L₀ s h) {cur : ℕ}
    (hcur : ∀ i, Owns s i → i ≠ s.current → (s.tasks i).stackBase ≠ cur) (log : List (FreeCall η))
    (hlog : ∀ c ∈ log, I c.before ∧ GoodCall live cur c) :
    ∀ c ∈ (l.foldl (Sched.reapSlot (JarvisOS.logged A)) (s, (h, log))).2.2,
      I c.before ∧ GoodCall live cur c := by
  induction l generalizing s h log with
  | nil => exact hlog
  | cons i l ih =>
    have hi := hl i List.mem_cons_self
    have hl' : ∀ j ∈ l, 1 ≤ j ∧ j < maxTasks := fun j hj => hl j (List.mem_cons_of_mem i hj)
    rw [List.foldl_cons]
    by_cases hr : s.Reapable i
    · have ho := owns_of_reapable hi hr
      have hlogged : StackInv (fun h => I h.1) (fun h => live h.1) L₀ s (h, log) :=
        ⟨hs.heap, hs.live_eq, hs.fresh, hs.distinct⟩
      rw [hlogged.reapSlot_of_reapable hi hr]
      refine ih hl' (hs.release hA ho) (fun j hj hne => ?_)
        (⟨(s.tasks i).stackBase, h, (A.kfree (s.tasks i).stackBase h).1⟩ :: log) fun c hc => ?_
      · obtain ⟨h1, h2, h3⟩ := hj
        rw [setTask_current] at hne
        -- the slots left keep their stacks
        have hji : j ≠ i := by
          rintro rfl
          exact h3 (by rw [setTask_stateOf, if_pos rfl]; rfl)
        rw [setTask_stateOf, if_neg hji] at h3
        rw [setTask_tasks_of_ne s _ hji]
        exact hcur j ⟨h1, h2, h3⟩ hne
      · rcases List.mem_cons.1 hc with rfl | hc
        · have hmem : stackOf s i ∈ live h := (hs.live_eq _).2 (Or.inr ⟨i, ho, rfl⟩)
          exact ⟨hs.heap, hmem, (hA.kfree h hs.heap _ hmem).1, hcur i ho hr.2⟩
        · exact hlog c hc
    · have hstep : Sched.reapSlot (JarvisOS.logged A) (s, (h, log)) i = (s, (h, log)) := if_neg hr
      rw [hstep]
      exact ih hl' hs hcur log hlog

/-- **Every call of `reap`** is good. -/
theorem reapLog_good (hA : HeapSpec A I live) (hs : StackInv I live L₀ s h) {cur : ℕ}
    (hcur : ∀ i, Owns s i → i ≠ s.current → (s.tasks i).stackBase ≠ cur) :
    ∀ c ∈ reapLog A s h, I c.before ∧ GoodCall live cur c := by
  unfold reapLog Sched.reap
  exact hs.foldl_reapSlot_good hA (fun _ hi => mem_slots.1 hi) hcur [] fun c hc => by simp at hc

/-! ## Creating a task -/

/-- Pushing words inside a live block changes no ownership. -/
theorem foldl_push (hA : HeapSpec A I live) {b : ℕ × ℕ} (words : List ℕ) {sp : ℕ} {h : η}
    (hI : I h) (hb : b ∈ live h) (hlo : b.1 + 4 * words.length ≤ sp) (hhi : sp ≤ b.1 + b.2) :
    I (words.foldl (fun p v => push A v p) (sp, h)).2 ∧
      live (words.foldl (fun p v => push A v p) (sp, h)).2 = live h := by
  induction words generalizing sp h with
  | nil => exact ⟨hI, rfl⟩
  | cons v words ih =>
    have hbound := hA.bounded h hI b hb
    rw [List.length_cons] at hlo
    have hsp : sub32 sp 4 = sp - 4 := sub32_of_le (by omega) (by omega)
    obtain ⟨hI', hlive'⟩ := hA.store h hI b hb (sp - 4) v (by omega) (by omega)
    rw [List.foldl_cons]
    simp only [push, hsp]
    obtain ⟨h1, h2⟩ := ih hI' (hlive' ▸ hb) (show b.1 + 4 * words.length ≤ sp - 4 by omega)
      (by omega)
    exact ⟨h1, h2.trans hlive'⟩

theorem pushFrame_spec (hA : HeapSpec A I live) (taskExitAddr entry : ℕ) {stack : ℕ} (hI : I h)
    (hb : (stack, taskStackSize) ∈ live h) :
    I (pushFrame A taskExitAddr entry stack h).2 ∧
      live (pushFrame A taskExitAddr entry stack h).2 = live h := by
  have hbound := hA.bounded h hI _ hb
  simp only at hbound
  unfold pushFrame
  rw [u32_of_lt hbound]
  exact foldl_push hA (initialFrame taskExitAddr entry) hI hb
    (by simp [initialFrame, taskStackSize]) (le_refl _)

/-- A heap with the same live blocks. -/
theorem withHeap (hs : StackInv I live L₀ s h) {h' : η} (hI : I h') (hl : live h' = live h) :
    StackInv I live L₀ s h' :=
  ⟨hI, fun b => by rw [hl]; exact hs.live_eq b, hs.fresh, hs.distinct⟩

/-- A new block belongs to no slot. -/
theorem allocate (hs : StackInv I live L₀ s h) {h' : η} {b : ℕ × ℕ} (hI : I h') (hb : b ∉ live h)
    (hl : live h' = insert b (live h)) : StackInv I live (insert b L₀) s h' where
  heap := hI
  live_eq c := by
    rw [hl, Set.mem_insert_iff, hs.live_eq, Set.mem_insert_iff, or_assoc]
  fresh i hi := by
    refine ⟨(hs.fresh i hi).1, fun hmem => ?_⟩
    rcases Set.mem_insert_iff.1 hmem with e | hmem
    · exact hb (e ▸ (hs.live_eq _).2 (Or.inr ⟨i, hi, rfl⟩))
    · exact (hs.fresh i hi).2 hmem
  distinct := hs.distinct

/-- A block that is no task's stack is freed. -/
theorem forget (hs : StackInv I live L₀ s h) {h' : η} {ptr : ℕ} (hI : I h')
    (hl : live h' = {b ∈ live h | b.1 ≠ ptr})
    (hptr : ∀ i, Owns s i → (s.tasks i).stackBase ≠ ptr) :
    StackInv I live {b ∈ L₀ | b.1 ≠ ptr} s h' where
  heap := hI
  live_eq b := by
    rw [hl, Set.mem_ofPred_eq, hs.live_eq, Set.mem_ofPred_eq]
    constructor
    · rintro ⟨hb | hb, hne⟩
      · exact Or.inl ⟨hb, hne⟩
      · exact Or.inr hb
    · rintro (⟨hb, hne⟩ | ⟨i, hi, rfl⟩)
      · exact ⟨Or.inl hb, hne⟩
      · exact ⟨Or.inr ⟨i, hi, rfl⟩, hptr i hi⟩
  fresh i hi := ⟨(hs.fresh i hi).1, fun hmem => (hs.fresh i hi).2 hmem.1⟩
  distinct := hs.distinct

/-- A new task takes a block over as its stack. -/
theorem adopt {slot stack sp : ℕ} {name : List Char}
    (hs : StackInv I live (insert (stack, taskStackSize) L₀) s h) (h1 : 1 ≤ slot)
    (h2 : slot < maxTasks) (h3 : s.stateOf slot = .unused) (hz : stack ≠ 0)
    (hL : (stack, taskStackSize) ∉ L₀) :
    StackInv I live L₀ (s.setTask slot (created slot sp stack name)) h := by
  have howns : ∀ j, Owns (s.setTask slot (created slot sp stack name)) j ↔ Owns s j ∨ j = slot := by
    intro j
    unfold Owns
    rw [setTask_stateOf]
    by_cases hj : j = slot
    · subst hj
      simp [created, h1, h2]
    · simp [hj]
  have hnot : ¬ Owns s slot := fun ho => ho.2.2 h3
  have hold : ∀ j, Owns s j → ((s.setTask slot (created slot sp stack name)).tasks j) = s.tasks j :=
    fun j hj => setTask_tasks_of_ne s _ fun e => hnot (e ▸ hj)
  have hnew : ∀ j, Owns s j → (s.tasks j).stackBase ≠ stack := by
    intro j hj e
    exact (hs.fresh j hj).2 (Or.inl (by rw [stackOf, e]))
  refine ⟨hs.heap, fun b => ?_, fun j hj => ?_, fun j k hj hk hjk => ?_⟩
  · rw [hs.live_eq, Set.mem_insert_iff, or_assoc]
    constructor
    · rintro (rfl | hb | ⟨j, hj, rfl⟩)
      · exact Or.inr ⟨slot, (howns slot).2 (Or.inr rfl), by rw [stackOf, setTask_tasks_self]; rfl⟩
      · exact Or.inl hb
      · exact Or.inr ⟨j, (howns j).2 (Or.inl hj), by rw [stackOf, stackOf, hold j hj]⟩
    · rintro (hb | ⟨j, hj, rfl⟩)
      · exact Or.inr (Or.inl hb)
      · rcases (howns j).1 hj with hj | rfl
        · exact Or.inr (Or.inr ⟨j, hj, by rw [stackOf, stackOf, hold j hj]⟩)
        · exact Or.inl (by rw [stackOf, setTask_tasks_self]; rfl)
  · rcases (howns j).1 hj with hj | rfl
    · rw [stackOf, hold j hj]
      exact ⟨(hs.fresh j hj).1, fun hmem => (hs.fresh j hj).2 (Or.inr hmem)⟩
    · rw [stackOf, setTask_tasks_self]
      exact ⟨hz, hL⟩
  · rcases (howns j).1 hj with hjo | hjs
    · rcases (howns k).1 hk with hko | hks
      · rw [hold j hjo, hold k hko] at hjk
        exact hs.distinct j k hjo hko hjk
      · rw [hold j hjo, hks, setTask_tasks_self] at hjk
        exact absurd hjk (hnew j hjo)
    · rcases (howns k).1 hk with hko | hks
      · rw [hold k hko, hjs, setTask_tasks_self] at hjk
        exact absurd hjk.symm (hnew k hko)
      · exact hjs.trans hks.symm

/-- **A failed `task_create` owns nothing**; a successful one owns one more block. -/
theorem taskCreate (hA : HeapSpec A I live) (hs : StackInv I live L₀ s h) (taskExitAddr : ℕ)
    (name : List Char) (entry : ℕ) :
    StackInv I live L₀ (taskCreate A taskExitAddr name entry s h).2.1
        (Sched.taskCreate A taskExitAddr name entry s h).2.2 ∧
      ((Sched.taskCreate A taskExitAddr name entry s h).1 = -1 →
        (Sched.taskCreate A taskExitAddr name entry s h).2.1 = s ∧
          live (Sched.taskCreate A taskExitAddr name entry s h).2.2 = live h) := by
  rcases taskCreate_cases A taskExitAddr name entry s h with
    ⟨-, e⟩ | ⟨hz, e⟩ | ⟨slot, hslot, hz, e⟩
  · rw [e]
    exact ⟨hs, fun _ => ⟨rfl, rfl⟩⟩
  · have hlive := hA.live_of_refused hs.heap hz
    rw [e]
    exact ⟨hs.withHeap (hA.kmalloc_inv h hs.heap) hlive, fun _ => ⟨rfl, hlive⟩⟩
  · obtain ⟨hfresh, hlive⟩ := hA.live_of_granted hs.heap hz
    obtain ⟨hI, hl⟩ := pushFrame_spec hA taskExitAddr entry (hA.kmalloc_inv h hs.heap)
      (hA.mem_live_of_granted hs.heap hz)
    obtain ⟨h1, h2, h3⟩ := findSlot_some hslot
    have hnew := hs.allocate hI (hfresh _) (hl.trans hlive)
    rw [e]
    exact ⟨hnew.adopt h1 h2 h3 hz fun hL => hfresh _ ((hs.live_eq _).2 (Or.inl hL)),
      fun hneg => by simp at hneg⟩

/-! ## The other operations -/

theorem setState (hs : StackInv I live L₀ s h) {i : ℕ} {st : TaskState}
    (hu : s.stateOf i = .unused ↔ st = .unused) : StackInv I live L₀ (s.setState i st) h := by
  refine hs.congr (fun j => ?_) fun j _ => by rw [setState_tasks]
  unfold Owns
  rw [setState_stateOf]
  by_cases hj : j = i
  · subst hj
    simp [hu]
  · simp [hj]

theorem switched (hs : StackInv I live L₀ s h) {next : ℕ}
    (hr : s.stateOf next = .ready ∨ s.stateOf next = .running) (esp : ℕ) :
    StackInv I live L₀ (s.switched next esp) h := by
  refine hs.congr (fun j => ?_) fun j _ => rfl
  unfold Owns
  refine and_congr_right fun _ => and_congr_right fun _ => not_congr ?_
  rw [switched_stateOf]
  split_ifs with hj hc
  · subst hj
    rcases hr with hr | hr <;> simp [hr]
  · simp [hc.2]
  · rfl

theorem switchTo_pickNext (hs : StackInv I live L₀ s h) (hi : SchedInv s) (esp : ℕ) :
    StackInv I live L₀ (switchTo s.pickNext esp s) h := by
  obtain ⟨i, -, hpick, hr⟩ := hi.pickNext
  rw [hpick]
  by_cases hic : i = s.current
  · rw [hic, switchTo_self]
    exact hs
  · rw [switchTo_of_ne s esp hic]
    exact hs.switched hr esp

theorem schedulerTick (hA : HeapSpec A I live) (hs : StackInv I live L₀ s h) (hi : SchedInv s)
    (esp : ℕ) :
    StackInv I live L₀ (schedulerTick A esp s h).1 (Sched.schedulerTick A esp s h).2 := by
  have hreap := hs.reap hA
  have hinv := hi.reap A h
  rw [schedulerTick_of_enabled A hi.enabled]
  generalize Sched.reap A s h = r at hreap hinv
  simp only
  split_ifs with hq
  · exact ⟨hreap.heap, hreap.live_eq, hreap.fresh, hreap.distinct⟩
  · exact hreap.switchTo_pickNext hinv esp

end StackInv

/-- Every operation keeps the ownership of stacks. -/
theorem SchedStep.stacks (hA : HeapSpec A I live) {taskExitAddr : ℕ} {op : SchedOp}
    {p q : Sched × η} {L₀ : Set (ℕ × ℕ)} (hi : SchedInv p.1) (hs : StackInv I live L₀ p.1 p.2)
    (ht : SchedStep A taskExitAddr op p q) : StackInv I live L₀ q.1 q.2 := by
  cases ht with
  | create name entry s h => exact (hs.taskCreate hA taskExitAddr name entry).1
  | kill id s h =>
    unfold taskKill
    split_ifs with h1 h2
    · exact hs
    · exact hs
    · exact hs.setState (by simp [h2])
  | exit s h hc =>
    refine hs.setState ⟨fun hu => ?_, fun hu => by cases hu⟩
    rcases hi.current with hr | hr <;> rw [hu] at hr <;> cases hr
  | yield esp s h =>
    unfold taskYield
    split_ifs
    · exact hs
    · exact hs.switchTo_pickNext hi esp
  | tick esp s h => exact hs.schedulerTick hA hi esp

/-- The heap without allocation. -/
def quiet (A : HeapApi η) : HeapApi η := { A with kmalloc := fun _ h => (0, h) }

theorem schedulerTick_quiet (esp : ℕ) (s : Sched) (h : η) :
    schedulerTick (quiet A) esp s h = schedulerTick A esp s h := by
  have hslot : reapSlot (quiet A) = reapSlot A := rfl
  unfold schedulerTick reap
  rw [hslot]

theorem reapLog_quiet (s : Sched) (h : η) : reapLog (quiet A) s h = reapLog A s h := by
  have hslot : reapSlot (logged (quiet A)) = reapSlot (logged A) := rfl
  unfold reapLog reap
  rw [hslot]

theorem pushFrame_quiet (taskExitAddr entry stack : ℕ) (h : η) :
    pushFrame (quiet A) taskExitAddr entry stack h = pushFrame A taskExitAddr entry stack h := by
  have hpush : push (quiet A) = push A := rfl
  unfold pushFrame
  rw [hpush]

/-- **What an operation does to the heap**: it keeps what frees of stacks and writes inside live
blocks keep; creating a task allocates first. -/
theorem SchedStep.heap_cases (hA : HeapSpec A I live) {taskExitAddr : ℕ} {op : SchedOp}
    {p q : Sched × η} {L₀ : Set (ℕ × ℕ)} (hi : SchedInv p.1) (hs : StackInv I live L₀ p.1 p.2)
    (ht : SchedStep A taskExitAddr op p q) :
    (∀ K : η → Prop, HeapSpec (quiet A) (fun h => I h ∧ K h) live → K p.2 → K q.2) ∨
      (∃ name entry, op = .create name entry) ∧ p.1.findSlot ≠ none ∧
        ∀ K : η → Prop, HeapSpec (quiet A) (fun h => I h ∧ K h) live →
          K (A.kmalloc taskStackSize p.2).2 → K q.2 := by
  cases ht with
  | create name entry s h =>
    rcases taskCreate_cases A taskExitAddr name entry s h with
      ⟨-, e⟩ | ⟨-, e⟩ | ⟨slot, hslot, hz, e⟩
    · rw [e]
      exact Or.inl fun K _ hk => hk
    · by_cases hslot : s.findSlot = none
      · rw [taskCreate, hslot]
        exact Or.inl fun K _ hk => hk
      · rw [e]
        exact Or.inr ⟨⟨name, entry, rfl⟩, hslot, fun K _ hk => hk⟩
    · refine Or.inr ⟨⟨name, entry, rfl⟩, by rw [hslot]; exact Option.some_ne_none _,
        fun K hK hk => ?_⟩
      rw [e]
      have hpush := (StackInv.pushFrame_spec hK taskExitAddr entry
        ⟨hA.kmalloc_inv h hs.heap, hk⟩ (hA.mem_live_of_granted hs.heap hz)).1.2
      rwa [pushFrame_quiet] at hpush
  | kill id s h => exact Or.inl fun K _ hk => hk
  | exit s h hc => exact Or.inl fun K _ hk => hk
  | yield esp s h => exact Or.inl fun K _ hk => hk
  | tick esp s h =>
    refine Or.inl fun K hK hk => ?_
    have hquiet : StackInv (fun h => I h ∧ K h) live L₀ s h :=
      ⟨⟨hs.heap, hk⟩, hs.live_eq, hs.fresh, hs.distinct⟩
    have htick := (hquiet.schedulerTick hK hi esp).heap.2
    rwa [schedulerTick_quiet] at htick

theorem SchedReach.stacks (hA : HeapSpec A I live) {taskExitAddr : ℕ} {h₀ : η} {p : Sched × η}
    (h₀I : I h₀) (h : SchedReach A taskExitAddr h₀ p) : StackInv I live (live h₀) p.1 p.2 := by
  refine Reach.invariant (I := fun p => StackInv I live (live h₀) p.1 p.2) h ?_ ?_
  · rintro p rfl
    exact StackInv.start h₀I rfl
  · rintro p q hp hs ⟨op, ht⟩
    exact ht.stacks hA (SchedReach.inv hp) hs

/-- The kernel's slot never has a stack of its own. -/
theorem SchedReach.kernel_stack {taskExitAddr : ℕ} {h₀ : η} {p : Sched × η}
    (h : SchedReach A taskExitAddr h₀ p) : (p.1.tasks 0).stackBase = 0 := by
  refine Reach.invariant (I := fun p => (p.1.tasks 0).stackBase = 0) h ?_ ?_
  · rintro p rfl
    rfl
  · rintro p q hp hz ⟨op, ht⟩
    have hinv := SchedReach.inv hp
    cases ht with
    | create name entry s h =>
      rcases taskCreate_sched_cases A taskExitAddr name entry s h
        with e | ⟨slot, sp, stack, hslot, e⟩
      · rw [e]
        exact hz
      · have hne : 0 ≠ slot := by have := (findSlot_some hslot).1; omega
        rw [e]
        simp only [setTask_tasks_of_ne s _ hne]
        exact hz
    | kill id s h =>
      unfold taskKill
      split_ifs
      · exact hz
      · exact hz
      · exact (congrArg Task.stackBase (setState_tasks s id 0 .dead)).trans hz
    | exit s h hc => exact (congrArg Task.stackBase (setState_tasks s s.current 0 .dead)).trans hz
    | yield esp s h =>
      unfold taskYield
      split_ifs
      · exact hz
      · exact (switchTo_stackBase s s.pickNext esp 0).trans hz
    | tick esp s h =>
      have hreap : ((reap A s h).1.tasks 0).stackBase = 0 := by
        rw [reap_tasks, if_neg fun hr => by omega]
        exact hz
      rw [schedulerTick_of_enabled A hinv.enabled]
      generalize (reap A s h).1 = r at hreap
      simp only
      split_ifs
      · exact hreap
      · exact (switchTo_stackBase _ _ esp 0).trans hreap

/-- **Task stacks are neither leaked, nor freed twice, nor freed while in use.** Over any heap as
in `HeapSpec`, in every state the operations reach: the blocks obtained by the scheduler are
exactly the stacks of the slots `1..maxTasks-1` in use, one distinct block for each slot; every
`kfree` of `reap` is about a live stack, succeeds, and is not about the stack of the current task,
which stays live; and a failed `task_create` leaves the table unchanged and owns no block. -/
theorem task_stacks_owned (hA : HeapSpec A I live) {taskExitAddr : ℕ} {h₀ : η} (h₀I : I h₀)
    {p : Sched × η} (h : SchedReach A taskExitAddr h₀ p) :
    (live p.2 = live h₀ ∪ {b | ∃ i, Owns p.1 i ∧ b = stackOf p.1 i}) ∧
    (∀ i, Owns p.1 i → stackOf p.1 i ∉ live h₀) ∧
    (∀ i j, Owns p.1 i → Owns p.1 j → stackOf p.1 i = stackOf p.1 j → i = j) ∧
    (∀ c ∈ reapLog A p.1 p.2, (c.ptr, taskStackSize) ∈ live c.before ∧ c.ret = 1 ∧
      c.ptr ≠ (p.1.tasks p.1.current).stackBase) ∧
    (p.1.current ≠ 0 → stackOf p.1 p.1.current ∈ live p.2 ∧
      stackOf p.1 p.1.current ∈ live (reap A p.1 p.2).2) ∧
    (∀ name entry, (taskCreate A taskExitAddr name entry p.1 p.2).1 = -1 →
      (taskCreate A taskExitAddr name entry p.1 p.2).2.1 = p.1 ∧
        live (taskCreate A taskExitAddr name entry p.1 p.2).2.2 = live p.2) := by
  have hinv := SchedReach.inv h
  have hs := SchedReach.stacks hA h₀I h
  have howns : p.1.current ≠ 0 → Owns p.1 p.1.current := fun hc =>
    ⟨Nat.pos_of_ne_zero hc, hinv.current_lt, by
      rcases hinv.current with hr | hr <;> rw [hr] <;> exact TaskState.noConfusion⟩
  have hcur : p.1.current = 0 ∧ (p.1.tasks 0).stackBase = 0 ∨ Owns p.1 p.1.current := by
    by_cases hc : p.1.current = 0
    · exact Or.inl ⟨hc, SchedReach.kernel_stack h⟩
    · exact Or.inr (howns hc)
  refine ⟨Set.ext fun b => hs.live_eq b, fun i hi => (hs.fresh i hi).2,
    fun i j hi hj e => hs.distinct i j hi hj (congrArg Prod.fst e), ?_, fun hc => ?_,
    fun name entry => (hs.taskCreate hA taskExitAddr name entry).2⟩
  · refine fun c hc => (hs.reapLog_good hA (fun i hi hne => ?_) c hc).2
    -- a slot other than the current one has a stack of its own
    rcases hcur with ⟨hc0, hz⟩ | ho
    · rw [hc0, hz]
      exact (hs.fresh i hi).1
    · exact fun e => hne (hs.distinct i _ hi ho e)
  · have ho := howns hc
    refine ⟨(hs.live_eq _).2 (Or.inr ⟨_, ho, rfl⟩), ?_⟩
    -- `reap` leaves the current slot alone, and the table still owns its stack
    have htask : (reap A p.1 p.2).1.tasks p.1.current = p.1.tasks p.1.current := by
      rw [reap_tasks, if_neg fun hr => hr.2.2 rfl]
    have hreap := hs.reap hA
    generalize reap A p.1 p.2 = r at htask hreap
    refine (hreap.live_eq _).2 (Or.inr ⟨p.1.current, ?_, ?_⟩)
    · refine ⟨ho.1, ho.2.1, ?_⟩
      rw [stateOf, htask]
      exact ho.2.2
    · rw [stackOf, stackOf, htask]

end Ownership

/-- Over the kernel's heap, with one task that has been killed. -/
theorem task_stacks_owned_killedTask : Owns killedTask.1 1 ∧
    liveOf killedTask.2 = ∅ ∪ {b | ∃ i, Owns killedTask.1 i ∧ b = stackOf killedTask.1 i} := by
  obtain ⟨l, hinv⟩ := HeapReach.inv (HeapReach.windowed (B := bumpBacking)
    (.start heapStarted_freshHeap))
  obtain ⟨hlive, -⟩ := task_stacks_owned (heapApi_spec (B := bumpBacking)) ⟨_, l, rfl, hinv⟩
    schedReach_killedTask
  exact ⟨⟨by decide, by decide, by decide +kernel⟩, hlive⟩

end JarvisOS
