import JarvisOS.Foundations.Footprint
import JarvisOS.Heap.Magic

/-!
# Every access of the heap is below its break

The heap code reads and writes words inside `[heapStart, brk)` only, with the break as it is at the
time of the access: before a growth below the old break, after it below the new one. `Within` says
so of one action, together with a property of the break and of what stands behind the heap. Only
`grow_mapping` changes these, and it accesses nothing; all other parts of the code leave them alone
(`only_coalesce` and its siblings), so that what they access they access in the state they were
started in (`within_of_runs`).
-/

namespace JarvisOS

open Foundations HeapOp Prog

variable {σ : Type} {B : Backing σ} {s t : HeapState σ} {l : List Seg}

namespace HeapOp

/-- The address of the word that an action reads or writes. -/
def address : HeapOp → Option ℕ
  | load a => some a
  | store a _ => some a
  | _ => none

/-- The action leaves the break, the frames and the page tables alone. -/
def Local : HeapOp → Prop
  | setBrk _ | pmmAllocFrame | pmmFreeFrame _ | pagingMap _ _ _ => False
  | _ => True

end HeapOp

/-- The word accessed, if any, lies below the break, and `G` holds of the break and of what stands
behind the heap. -/
def Within (G : σ → ℕ → Prop) (s : HeapState σ) (o : HeapOp) : Prop :=
  ∀ a, o.address = some a → heapStart ≤ a ∧ a + 4 ≤ s.brk ∧ G s.env s.brk

/-! ## Parts of the code that leave the break alone -/

section Only

theorem only_mergeable (b e : ℕ) : Only Local (mergeable b e) := by
  unfold mergeable
  refine ⟨trivial,
    fun free => only_ite only_ret ⟨trivial, fun next => ⟨trivial, fun nextFree => ?_⟩⟩⟩
  exact only_ite only_ret ⟨trivial, fun _ => only_ret⟩

theorem only_swallow (b : ℕ) : Only Local (swallow b) := by
  simp [swallow, getNext, getSize, setSize, setNext, Local]

theorem only_coalesceLoop (fuel b : ℕ) : Only Local (coalesceLoop fuel b) := by
  induction fuel generalizing b with
  | zero => exact only_spin
  | succ fuel ih =>
    unfold coalesceLoop
    refine only_ite only_ret ⟨trivial, fun next => only_ite only_ret ⟨trivial, fun size => ?_⟩⟩
    refine (only_mergeable _ _).bind fun merge => only_ite ?_ ⟨trivial, fun next => ih next⟩
    exact (only_swallow b).bind fun _ => ih b

theorem only_coalesce : Only Local coalesce := ⟨trivial, fun b => only_coalesceLoop listFuel b⟩

theorem only_tailLoop (fuel tail : ℕ) : Only Local (tailLoop fuel tail) := by
  induction fuel generalizing tail with
  | zero => exact only_spin
  | succ fuel ih =>
    unfold tailLoop
    exact ⟨trivial, fun next => only_ite only_ret ⟨trivial, fun next => ih next⟩⟩

theorem only_appendBlock (oldBrk : ℕ) : Only Local (appendBlock oldBrk) := by
  refine ⟨trivial, fun _ => ⟨trivial, fun brk => ⟨trivial, fun _ => ⟨trivial, fun _ => ⟨trivial,
    fun _ => ⟨trivial, fun head => ?_⟩⟩⟩⟩⟩⟩
  exact (only_tailLoop listFuel head).bind fun tail => ⟨trivial, fun _ =>
    only_coalesce.bind fun _ => only_ret⟩

theorem only_takeBlock (b size : ℕ) : Only Local (takeBlock b size) := by
  unfold takeBlock
  refine ⟨trivial, fun bsize => only_ite ?_ ⟨trivial, fun _ => only_ret⟩⟩
  simp [getSize, getNext, setMagic, setSize, setNext, setFree, Local]

theorem only_searchLoop (size fuel b : ℕ) : Only Local (searchLoop size fuel b) := by
  induction fuel generalizing b with
  | zero => exact only_spin
  | succ fuel ih =>
    have hunfit : Only Local (unfit b size) := by
      unfold unfit
      exact ⟨trivial, fun free => only_ite only_ret ⟨trivial, fun _ => only_ret⟩⟩
    unfold searchLoop
    refine only_ite only_ret (hunfit.bind fun skip => only_ite ⟨trivial, fun next => ih next⟩ ?_)
    exact (only_takeBlock b size).bind fun _ => only_ret

theorem only_kfree (ptr : ℕ) : Only Local (kfree ptr) := by
  have hreject : ∀ addr, Only Local (kfree.rejectOutside addr) := fun addr => by
    simp [kfree.rejectOutside, Local]
  unfold kfree
  refine only_ite only_ret (only_ite (hreject ptr) ⟨trivial, fun brk => only_ite (hreject ptr) ?_⟩)
  refine ⟨trivial, fun magic => only_ite (by simp [Local]) ⟨trivial, fun free => ?_⟩⟩
  exact only_ite (by simp [Local]) ⟨trivial, fun _ => only_coalesce.bind fun _ => only_ret⟩

/-- The growth loop accesses no word. -/
theorem only_growMapping (bytes : ℕ) : Only (fun o => o.address = none) (growMapping bytes) := by
  have hloop : ∀ pages off, Only (fun o => o.address = none) (growLoop pages off) := by
    intro pages
    induction pages with
    | zero => exact fun _ => only_ret
    | succ pages ih =>
      intro off
      unfold growLoop
      refine ⟨rfl, fun frame => only_ite only_ret ⟨rfl, fun brk => ⟨rfl, fun mapped => ?_⟩⟩⟩
      exact only_ite ⟨rfl, fun _ => only_ret⟩ (ih _)
  refine ⟨rfl, fun brk => only_ite only_ret ((hloop _ _).bind fun grown => ?_)⟩
  exact only_ite only_ret ⟨rfl, fun brk => ⟨rfl, fun _ => only_ret⟩⟩

end Only

/-! ## Accesses -/

/-- What leaves the break and what stands behind the heap alone. -/
theorem heapAct_local {o : HeapOp} (ho : o.Local) (s : HeapState σ) :
    ((heapAct B o s).2.env, (heapAct B o s).2.brk) = (s.env, s.brk) := by
  cases o with
  | setBrk | pmmAllocFrame | pmmFreeFrame | pagingMap => exact absurd ho id
  | _ => rfl

variable {α : Type} {p : HeapM α} {a : α} {G : σ → ℕ → Prop}

/-- **A part of the code that leaves the break alone** accesses words below it. -/
theorem within_of_runs (hp : Only Local p)
    (hrun : Runs (heapAct B) (InWindow heapStart s.brk) p s a t) (hG : G s.env s.brk) :
    Meets (heapAct B) (Within G) p s := by
  refine Meets.of_only (fun s : HeapState σ => (s.env, s.brk)) (fun o ho u => heapAct_local ho u)
    (fun o r u _ ho hu b hb => ?_) hp hrun.2
  obtain ⟨henv, hbrk⟩ := Prod.mk.inj hu
  rw [henv, hbrk]
  cases o with
  | load b' | store b' v =>
    obtain rfl := Option.some.inj hb
    exact ⟨ho.1, ho.2, hG⟩
  | _ => cases hb

/-- A part of the code that accesses nothing. -/
theorem within_of_only (hp : Only (fun o => o.address = none) p) :
    Meets (heapAct B) (Within G) p s := by
  refine Meets.of_only (fun _ : HeapState σ => ()) (fun _ _ _ => rfl)
    (fun o r u ho _ _ b hb => ?_) hp (S := fun _ _ => True) fun _ _ => trivial
  rw [ho] at hb
  cases hb

/-! ## Freeing -/

/-- `kfree` of a payload in use. -/
theorem Tiled.within_kfree {pre post : List Seg} {x : Seg} (h : Tiled s (pre ++ x :: post))
    (hx : x.free = false) (hG : G s.env s.brk) : Meets (heapAct B) (Within G)
      (kfree (heapStart + Seg.span headerSize pre + headerSize)) s := by
  obtain ⟨m, t, hrun, -⟩ := runs_kfree (B := B) h hx
  exact within_of_runs (only_kfree _) hrun hG

/-! ## Allocating -/

/-- An action that accesses nothing. -/
theorem meets_act_of_none {o : HeapOp} {k : ℕ → HeapM α} (ho : o.address = none)
    (hk : Meets (heapAct B) (Within G) (k (heapAct B o s).1) (heapAct B o s).2) :
    Meets (heapAct B) (Within G) (perform o >>= k) s := by
  refine meets_act.2 ⟨fun b hb => ?_, hk⟩
  rw [ho] at hb
  cases hb

/-- A growth that does not end below the ceiling, or is not granted, returns `0`. -/
theorem growMapping_eq_zero (h : Tiled s l) {size r : ℕ} (hsize : size ≤ 2 ^ 31)
    (hw : GrowthInWindow B size s)
    (hno : ¬ (s.brk + growthPages size * pageSize ≤ heapStart + heapMax ∧
      (mapPages B (growthPages size) s.brk s).1 = growthPages size))
    (hrun : run (heapAct B) (growMapping (wantBytes size)) s = some (r, t)) : r = 0 := by
  obtain ⟨hpages, -⟩ := growthPages_spec hsize
  have hruns : Runs (heapAct B) (Confined (fun _ => True) fun _ => True)
      (growMapping (wantBytes size)) s r t := by
    refine ⟨hrun, fun o _ => ?_⟩
    cases o.1 with
    | pagingMap => exact fun _ => trivial
    | _ => trivial
  rw [runs_growMapping hpages h.brk_lt] at hruns
  split_ifs at hruns with hceil hall
  · exact hruns.1
  · -- all pages were granted, so that the end has wrapped around
    refine absurd ⟨?_, hall⟩ hno
    rw [GrowthInWindow, ← mapPages_fst, hall] at hw
    rcases hw with hlt | hle
    · rw [u32_of_lt hlt, u32_of_lt window_lt] at hceil
      exact Nat.not_lt.1 hceil
    · exact hle
  · exact hruns.2.1

/-- An attempt that finds a block. -/
theorem within_attemptLoop_found {pre post : List Seg} {x : Seg} {size : ℕ} (attempts : ℕ)
    (h : Tiled s (pre ++ x :: post)) (hpre : ∀ y ∈ pre, ¬ y.Fits size) (hx : x.Fits size)
    (hG : G s.env s.brk) : Meets (heapAct B) (Within G) (attemptLoop size (attempts + 1)) s := by
  obtain ⟨p, t, hrun, -⟩ := runs_searchLoop (B := B) h hpre hx
  rw [attemptLoop]
  refine meets_act_of_none rfl ?_
  exact (within_of_runs (only_searchLoop ..) hrun hG).bind_of_run hrun.1 meets_ret

/-- **The accesses of `kmalloc`** lie below the break, before the heap grows and after. -/
theorem Tiled.within_kmalloc (h : Tiled s l) {n : ℕ} (h1 : 1 ≤ n) (h2 : n < 2 ^ 31)
    (hw : GrowthInWindow B (align8 n) s) (hG : G s.env s.brk)
    (hgrow : s.brk + growthPages (align8 n) * pageSize ≤ heapStart + heapMax →
      (JarvisOS.mapPages B (growthPages (align8 n)) s.brk s).1 = growthPages (align8 n) →
      G (JarvisOS.mapPages B (growthPages (align8 n)) s.brk s).2.env
        (s.brk + growthPages (align8 n) * pageSize)) :
    Meets (heapAct B) (Within G) (kmalloc n) s := by
  obtain ⟨-, -, hsize⟩ := payloadSize_align8 h1 h2
  rw [kmalloc]
  refine meets_act_of_none rfl ?_
  show Meets _ _ (if s.ready = 0 then _ else if n = 0 then _ else attemptLoop (align8 n) 2) s
  rw [h.ready, if_neg Nat.one_ne_zero, if_neg (by omega)]
  generalize align8 n = size at hw hgrow hsize ⊢
  rcases Seg.firstFit size l with hno | ⟨pre, x, post, rfl, hpre, hx⟩
  swap
  · exact within_attemptLoop_found 1 h hpre hx hG
  -- the search only reads
  have hsearch := runs_searchLoop_none (B := B) loadsIn_inWindow h.length_lt h.headers
    (h.spans le_rfl h.brk_lt) hno
  have hlink : linkTo heapStart l 0 = s.head := by
    obtain ⟨x, l', rfl⟩ := List.exists_cons_of_ne_nil h.ne_nil
    exact h.head.symm
  rw [hlink] at hsearch
  rw [attemptLoop]
  refine meets_act_of_none rfl ?_
  refine (within_of_runs (only_searchLoop ..) hsearch hG).bind_of_run hsearch.1 ?_
  show Meets _ _ (extendHeap size >>= fun extended =>
    if extended = 0 then ret 0 else attemptLoop size 1) s
  rw [extendHeap_eq, bind_assoc]
  refine meets_act_of_none rfl ?_
  rw [bind_assoc]
  refine (within_of_only (only_growMapping _)).bind fun r g hrun => ?_
  by_cases hall : s.brk + growthPages size * pageSize ≤ heapStart + heapMax ∧
      (JarvisOS.mapPages B (growthPages size) s.brk s).1 = growthPages size
  · -- the new pages are below the new break
    obtain ⟨g', m, u, hgrown, hblock, henv, hbrk, hu⟩ :=
      runs_extendHeap_granted (B := B) h hsize hall.1 hall.2
    obtain ⟨rfl, rfl⟩ := hgrown.unique hrun
    have hGg : G g.env g.brk := by
      rw [henv, hbrk]
      exact hgrow hall.1 hall.2
    rw [if_neg Nat.one_ne_zero]
    refine (within_of_runs (only_appendBlock _) hblock hGg).bind_of_run hblock.1 ?_
    rw [if_neg Nat.one_ne_zero]
    obtain ⟨pre, x, post, e, hpre, hx⟩ := exists_firstFit_grown hsize l
    refine within_attemptLoop_found 0 (e ▸ hu.tiled h) hpre hx ?_
    rw [hu.state]
    exact hgrow hall.1 hall.2
  · rw [if_pos (growMapping_eq_zero h hsize hw hall hrun), ret_bind, if_pos rfl]
    exact meets_ret

end JarvisOS
