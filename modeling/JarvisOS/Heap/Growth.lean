import JarvisOS.Heap.Walks

/-!
# Growing the heap

`mapPages` is the growth loop as a function: how many of the pages asked for were granted, and the
state afterwards. `runs_growLoop` says that the loop of `grow_mapping` computes it and maps exactly
the granted pages, and `mapPages_spec` that nothing but those pages and the backing changes.
-/

namespace JarvisOS

open Foundations HeapOp Prog

variable {σ : Type} {B : Backing σ} {P Q : ℕ → Prop} {s t : HeapState σ}

/-! ## Pages one after the other -/

/-- Take a frame and map it at `virt`: whether that worked, and the state afterwards. -/
def mapPage (B : Backing σ) (virt : ℕ) (s : HeapState σ) : Bool × HeapState σ :=
  let frame := B.pmmAllocFrame s.env
  if frame.1 = 0 then (false, { s with env := frame.2 })
  else
    let mapped := B.pagingMap virt frame.1 pageWrite frame.2
    if mapped.1 = 0 then (false, { s with env := B.pmmFreeFrame frame.1 mapped.2 })
    else (true, { s with
      env := mapped.2
      mem := showFrame s.mem virt frame.1 (B.physByte mapped.2) })

/-- Map up to `pages` pages from `virt` on: how many were granted before the first refusal, and the
state afterwards. -/
def mapPages (B : Backing σ) : ℕ → ℕ → HeapState σ → ℕ × HeapState σ
  | 0, _, s => (0, s)
  | pages + 1, virt, s =>
    if (mapPage B virt s).1 then
      let rest := mapPages B pages (u32 (virt + pageSize)) (mapPage B virt s).2
      (rest.1 + 1, rest.2)
    else (0, (mapPage B virt s).2)

/-- How many of `pages` pages from `virt` on the backing grants, asked for one after the other. -/
def Backing.grants (B : Backing σ) : ℕ → ℕ → σ → ℕ
  | 0, _, _ => 0
  | pages + 1, virt, e =>
    let frame := B.pmmAllocFrame e
    if frame.1 = 0 then 0
    else
      let mapped := B.pagingMap virt frame.1 pageWrite frame.2
      if mapped.1 = 0 then 0 else B.grants pages (u32 (virt + pageSize)) mapped.2 + 1

/-- The growth loop gets what the backing grants. -/
theorem mapPages_fst (pages virt : ℕ) (s : HeapState σ) :
    (mapPages B pages virt s).1 = B.grants pages virt s.env := by
  induction pages generalizing virt s with
  | zero => rfl
  | succ pages ih =>
    unfold mapPages mapPage Backing.grants
    by_cases hf : (B.pmmAllocFrame s.env).1 = 0
    · simp [hf]
    · by_cases hm : (B.pagingMap virt (B.pmmAllocFrame s.env).1 pageWrite
          (B.pmmAllocFrame s.env).2).1 = 0
      · simp [hf, hm]
      · simp [hf, hm, ih]

theorem mapPages_succ_of_granted {virt : ℕ} (h : (mapPage B virt s).1 = true) (pages : ℕ) :
    mapPages B (pages + 1) virt s =
      ((mapPages B pages (u32 (virt + pageSize)) (mapPage B virt s).2).1 + 1,
        (mapPages B pages (u32 (virt + pageSize)) (mapPage B virt s).2).2) := if_pos h

theorem mapPages_succ_of_refused {virt : ℕ} (h : (mapPage B virt s).1 = false) (pages : ℕ) :
    mapPages B (pages + 1) virt s = (0, (mapPage B virt s).2) := if_neg (by simp [h])

theorem mapPages_le (pages virt : ℕ) (s : HeapState σ) : (mapPages B pages virt s).1 ≤ pages := by
  induction pages generalizing virt s with
  | zero => exact le_rfl
  | succ pages ih =>
    cases h : (mapPage B virt s).1 with
    | true => exact (mapPages_succ_of_granted h pages) ▸ Nat.succ_le_succ (ih _ _)
    | false => exact (mapPages_succ_of_refused h pages) ▸ Nat.zero_le _

/-- The variables of the heap other than its memory and backing. -/
def SameVars (s t : HeapState σ) : Prop :=
  t.head = s.head ∧ t.brk = s.brk ∧ t.ready = s.ready ∧ t.out = s.out

theorem SameVars.trans {u : HeapState σ} (h : SameVars s t) (h' : SameVars t u) : SameVars s u :=
  ⟨h'.1.trans h.1, h'.2.1.trans h.2.1, h'.2.2.1.trans h.2.2.1, h'.2.2.2.trans h.2.2.2⟩

/-- One page: the variables stay, and memory changes on the page only. -/
theorem mapPage_spec (virt : ℕ) (s : HeapState σ) :
    SameVars s (mapPage B virt s).2 ∧
      ∀ y, y / pageSize ≠ virt / pageSize ∨ (mapPage B virt s).1 = false →
        (mapPage B virt s).2.mem y = s.mem y := by
  unfold mapPage
  by_cases hf : (B.pmmAllocFrame s.env).1 = 0
  · simp only [hf, if_true]
    exact ⟨⟨rfl, rfl, rfl, rfl⟩, fun _ _ => trivial⟩
  · simp only [hf, if_false]
    split_ifs
    · exact ⟨⟨rfl, rfl, rfl, rfl⟩, fun _ _ => rfl⟩
    · exact ⟨⟨rfl, rfl, rfl, rfl⟩, fun y hy => if_neg (by simpa using hy)⟩

/-- Page `i` after the next one. -/
theorem u32_next_page (v i : ℕ) :
    u32 (u32 (v + pageSize) + i * pageSize) = u32 (v + (i + 1) * pageSize) := by
  rw [Nat.add_mul]
  unfold u32
  omega

/-- **The growth loop changes the granted pages only.** -/
theorem mapPages_spec (pages virt : ℕ) (s : HeapState σ) :
    SameVars s (mapPages B pages virt s).2 ∧
      ∀ y, (∀ i < (mapPages B pages virt s).1,
        y / pageSize ≠ u32 (virt + i * pageSize) / pageSize) →
        virt < 2 ^ 32 → (mapPages B pages virt s).2.mem y = s.mem y := by
  induction pages generalizing virt s with
  | zero => exact ⟨⟨rfl, rfl, rfl, rfl⟩, fun _ _ _ => rfl⟩
  | succ pages ih =>
    obtain ⟨hvars, hmem⟩ := mapPage_spec (B := B) virt s
    cases h : (mapPage B virt s).1 with
    | false =>
      rw [mapPages_succ_of_refused h]
      exact ⟨hvars, fun y _ _ => hmem y (Or.inr h)⟩
    | true =>
      obtain ⟨hvars', hmem'⟩ := ih (u32 (virt + pageSize)) (mapPage B virt s).2
      rw [mapPages_succ_of_granted h]
      refine ⟨hvars.trans hvars', fun y hy hv => ?_⟩
      rw [hmem' y (fun i hi => ?_) (u32_lt _), hmem y (Or.inl ?_)]
      · have := hy 0 (Nat.succ_pos _)
        rwa [Nat.zero_mul, Nat.add_zero, u32_of_lt hv] at this
      · have := hy (i + 1) (Nat.succ_lt_succ hi)
        rwa [u32_next_page]

/-! ## The loop of `grow_mapping` -/

/-- One iteration of `grow_mapping`. -/
theorem runs_growLoop_succ {pages off r v : ℕ} (hv : u32 (s.brk + off) = v) :
    Runs (heapAct B) (Confined P Q) (growLoop (pages + 1) off) s r t ↔
      if (mapPage B v s).1 = true then Q v ∧ Runs (heapAct B) (Confined P Q)
        (growLoop pages (u32 (off + pageSize))) (mapPage B v s).2 r t
      else r = 0 ∧ t = (mapPage B v s).2 := by
  unfold mapPage
  simp only [growLoop, perform_bind, runs_act, heapAct, Confined, true_and]
  by_cases hf : (B.pmmAllocFrame s.env).1 = 0
  · simp only [hf, if_true, Bool.false_eq_true, if_false]
    exact runs_ret_iff
  · simp only [hf, if_false, runs_act, heapAct, Confined, true_and, hv]
    by_cases hm : (B.pagingMap v (B.pmmAllocFrame s.env).1 pageWrite
      (B.pmmAllocFrame s.env).2).1 = 0
    · simp only [hm, if_true, ne_eq, not_true_eq_false, false_implies, true_and, runs_act, heapAct,
        Confined, Bool.false_eq_true, if_false]
      exact runs_ret_iff
    · simp only [hm, if_false, if_true, ne_eq, not_false_eq_true, true_implies]

/-- **The loop computes `mapPages`**, and it maps only pages in `Q` if and only if every granted
page is. -/
theorem runs_growLoop {pages off r v : ℕ} (hv : u32 (s.brk + off) = v) :
    Runs (heapAct B) (Confined P Q) (growLoop pages off) s r t ↔
      r = (if (mapPages B pages v s).1 = pages then 1 else 0) ∧ t = (mapPages B pages v s).2 ∧
        ∀ i < (mapPages B pages v s).1, Q (u32 (v + i * pageSize)) := by
  induction pages generalizing off s v with
  | zero =>
    rw [growLoop, runs_ret_iff]
    exact ⟨fun h => ⟨h.1, h.2, fun i hi => absurd hi (Nat.not_lt_zero i)⟩, fun h => ⟨h.1, h.2.1⟩⟩
  | succ pages ih =>
    rw [runs_growLoop_succ hv]
    cases h : (mapPage B v s).1 with
    | false =>
      rw [mapPages_succ_of_refused h]
      simp
    | true =>
      have hbrk := (mapPage_spec (B := B) v s).1.2.1
      rw [if_pos rfl, mapPages_succ_of_granted h,
        ih (v := u32 (v + pageSize)) (by rw [hbrk, ← hv]; unfold u32; omega)]
      have hzero : u32 (v + 0 * pageSize) = v := by
        rw [← hv, Nat.zero_mul, Nat.add_zero, u32_u32]
      simp only [Nat.add_right_cancel_iff, u32_next_page]
      constructor
      · rintro ⟨hw, hr, ht, hrest⟩
        refine ⟨hr, ht, fun i hi => ?_⟩
        cases i with
        | zero => rwa [hzero]
        | succ i => exact hrest i (Nat.lt_of_succ_lt_succ hi)
      · rintro ⟨hr, ht, hall⟩
        exact ⟨hzero ▸ hall 0 (Nat.succ_pos _), hr, ht, fun i hi => hall (i + 1)
          (Nat.succ_lt_succ hi)⟩

theorem run_growLoop {pages off v : ℕ} (hv : u32 (s.brk + off) = v) :
    run (heapAct B) (growLoop pages off) s =
      some (if (mapPages B pages v s).1 = pages then 1 else 0, (mapPages B pages v s).2) :=
  ((runs_growLoop (P := fun _ => True) (Q := fun _ => True) hv).2
    ⟨rfl, rfl, fun _ _ => trivial⟩).1

/-! ## `grow_mapping` -/

theorem roundPages_eq_u32 (bytes : ℕ) : roundPages bytes = u32 (bytes + 4095) / 4096 * 4096 := by
  have e : lnot32 (pageSize - 1) = lnot32 (2 ^ 12 - 1) := rfl
  rw [roundPages, show bytes + pageSize - 1 = bytes + 4095 from rfl, e,
    and_lnot32 (by decide) (u32_lt _), show 2 ^ 12 = 4096 from rfl]

theorem roundPages_eq {bytes : ℕ} (h : bytes + 4095 < 2 ^ 32) :
    roundPages bytes = (bytes + 4095) / 4096 * 4096 := by
  rw [roundPages_eq_u32, u32_of_lt h]

theorem align8_eq_u32 (n : ℕ) : align8 n = u32 (n + 7) / 8 * 8 := by
  have e : lnot32 7 = lnot32 (2 ^ 3 - 1) := rfl
  rw [align8, e, and_lnot32 (by decide) (u32_lt _), show 2 ^ 3 = 8 from rfl]

theorem align8_eq {n : ℕ} (h : n + 7 < 2 ^ 32) : align8 n = (n + 7) / 8 * 8 := by
  rw [align8_eq_u32, u32_of_lt h]

/-- **`grow_mapping`**: refused at the ceiling, or the loop over the pages asked for. -/
theorem runs_growMapping {bytes pages r : ℕ} (hp : roundPages bytes = pages * pageSize)
    (hb : s.brk < 2 ^ 32) :
    Runs (heapAct B) (Confined P Q) (growMapping bytes) s r t ↔
      if u32 (s.brk + pages * pageSize) > u32 (heapStart + heapMax) then r = 0 ∧ t = s
      else (∀ i < (mapPages B pages s.brk s).1, Q (u32 (s.brk + i * pageSize))) ∧
        if (mapPages B pages s.brk s).1 = pages then
          r = 1 ∧ t = { (mapPages B pages s.brk s).2 with brk := u32 (s.brk + pages * pageSize) }
        else r = 0 ∧ t = (mapPages B pages s.brk s).2 := by
  have hdiv : pages * pageSize / pageSize = pages := Nat.mul_div_cancel _ (by decide)
  have hbrk := (mapPages_spec (B := B) pages s.brk s).1.2.1
  have hloop : ∀ r' t', Runs (heapAct B) (Confined P Q) (growLoop pages 0) s r' t' ↔ _ :=
    fun r' t' => runs_growLoop (v := s.brk) (u32_of_lt hb)
  simp only [growMapping, hp, hdiv]
  rw [runs_getBrk]
  by_cases hceil : u32 (s.brk + pages * pageSize) > u32 (heapStart + heapMax)
  · rw [if_pos hceil, if_pos hceil]
    exact runs_ret_iff
  rw [if_neg hceil, if_neg hceil, runs_bind]
  simp only [hloop]
  by_cases hall : (mapPages B pages s.brk s).1 = pages
  · rw [if_pos hall, if_pos hall]
    constructor
    · rintro ⟨_, _, ⟨rfl, rfl, hw⟩, hr⟩
      rw [if_neg Nat.one_ne_zero, runs_getBrk, runs_setBrk, hbrk] at hr
      exact ⟨hw, runs_ret_iff.1 hr⟩
    · rintro ⟨hw, rfl, rfl⟩
      refine ⟨1, _, ⟨rfl, rfl, hw⟩, ?_⟩
      rw [if_neg Nat.one_ne_zero, runs_getBrk, runs_setBrk, hbrk]
      exact runs_ret
  · rw [if_neg hall, if_neg hall]
    constructor
    · rintro ⟨_, _, ⟨rfl, rfl, hw⟩, hr⟩
      exact ⟨hw, runs_ret_iff.1 hr⟩
    · rintro ⟨hw, rfl, rfl⟩
      exact ⟨0, _, ⟨rfl, rfl, hw⟩, runs_ret⟩

end JarvisOS
