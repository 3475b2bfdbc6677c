import JarvisOS.Heap.Invariant
import JarvisOS.Tasks.Scheduler

/-!
# The heap as the scheduler uses it

`HeapSpec` is what the scheduler relies on: an allocation is a fresh block or fails, a live block
can be freed, and writing inside a live block changes no ownership. `heapApi` calls `kmalloc` and
`kfree` of the kernel's heap, each run to its end, and `heapApi_spec` says that it is such a heap.
-/

namespace JarvisOS

open Foundations Prog

/-- What the scheduler relies on: `I` is the heap's invariant, `live h` its live blocks, each with
its address and the size it was asked for with. -/
structure HeapSpec {η : Type} (A : HeapApi η) (I : η → Prop) (live : η → Set (ℕ × ℕ)) : Prop where
  kmalloc_inv : ∀ h, I h → I (A.kmalloc taskStackSize h).2
  kmalloc : ∀ h, I h →
    ((A.kmalloc taskStackSize h).1 = 0 ∧ live (A.kmalloc taskStackSize h).2 = live h) ∨
    ((A.kmalloc taskStackSize h).1 ≠ 0 ∧ (∀ n, ((A.kmalloc taskStackSize h).1, n) ∉ live h) ∧
      live (A.kmalloc taskStackSize h).2 =
        insert ((A.kmalloc taskStackSize h).1, taskStackSize) (live h))
  bounded : ∀ h, I h → ∀ b ∈ live h, b.1 + b.2 < 2 ^ 32
  kfree : ∀ h, I h → ∀ b ∈ live h,
    (A.kfree b.1 h).1 = 1 ∧ I (A.kfree b.1 h).2 ∧ live (A.kfree b.1 h).2 = live h \ {b}
  store : ∀ h, I h → ∀ b ∈ live h, ∀ a v, b.1 ≤ a → a + 4 ≤ b.1 + b.2 →
    I (A.store a v h) ∧ live (A.store a v h) = live h

section Spec

variable {η : Type} {A : HeapApi η} {I : η → Prop} {live : η → Set (ℕ × ℕ)} {h : η}

/-- A stack that was not given changes nothing. -/
theorem HeapSpec.live_of_refused (hA : HeapSpec A I live) (hI : I h)
    (hz : (A.kmalloc taskStackSize h).1 = 0) : live (A.kmalloc taskStackSize h).2 = live h := by
  rcases hA.kmalloc h hI with ⟨-, hlive⟩ | ⟨hnz, -⟩
  · exact hlive
  · exact absurd hz hnz

/-- A stack that was given is new. -/
theorem HeapSpec.live_of_granted (hA : HeapSpec A I live) (hI : I h)
    (hz : (A.kmalloc taskStackSize h).1 ≠ 0) :
    (∀ n, ((A.kmalloc taskStackSize h).1, n) ∉ live h) ∧
      live (A.kmalloc taskStackSize h).2 =
        insert ((A.kmalloc taskStackSize h).1, taskStackSize) (live h) := by
  rcases hA.kmalloc h hI with ⟨hz', -⟩ | ⟨-, hnew⟩
  · exact absurd hz' hz
  · exact hnew

theorem HeapSpec.mem_live_of_granted (hA : HeapSpec A I live) (hI : I h)
    (hz : (A.kmalloc taskStackSize h).1 ≠ 0) :
    ((A.kmalloc taskStackSize h).1, taskStackSize) ∈ live (A.kmalloc taskStackSize h).2 := by
  rw [(hA.live_of_granted hI hz).2]
  exact Set.mem_insert _ _

end Spec

variable {σ : Type} (B : Backing σ)

/-- The heap system after an allocation that returned `p`. -/
def HeapSystem.allocated (live : Set (ℕ × ℕ)) (n : ℕ) (r : ℕ × HeapState σ) : HeapSystem σ :=
  ⟨r.2, if r.1 = 0 then live else insert (r.1, n) live⟩

/-- The heap system after `kfree ptr`. -/
def HeapSystem.released (live : Set (ℕ × ℕ)) (ptr : ℕ) (r : ℕ × HeapState σ) : HeapSystem σ :=
  ⟨r.2, {b ∈ live | b.1 ≠ ptr}⟩

/-- The kernel's heap as the scheduler calls it; `none` stands for a heap one of whose calls has
not returned. -/
def heapApi : HeapApi (Option (HeapSystem σ)) where
  kmalloc n h :=
    match h.bind fun q => (run (heapAct B) (kmalloc n) q.heap).map fun r =>
      (r.1, HeapSystem.allocated q.live n r) with
    | none => (0, none)
    | some (p, q) => (p, some q)
  kfree ptr h :=
    match h.bind fun q => (run (heapAct B) (kfree ptr) q.heap).map fun r =>
      (r.1, HeapSystem.released q.live ptr r) with
    | none => (0, none)
    | some (p, q) => (p, some q)
  store a v h := h.map fun q => ⟨q.heap.setMem (q.heap.mem.write32 a v), q.live⟩

variable {B} {q : HeapSystem σ} {l : List Seg}

theorem heapApi_kmalloc {n p : ℕ} {t : HeapState σ}
    (h : run (heapAct B) (kmalloc n) q.heap = some (p, t)) :
    (heapApi B).kmalloc n (some q) = (p, some (HeapSystem.allocated q.live n (p, t))) := by
  simp only [heapApi, Option.bind_some, h, Option.map_some]

theorem heapApi_kfree {ptr r : ℕ} {t : HeapState σ}
    (h : run (heapAct B) (kfree ptr) q.heap = some (r, t)) :
    (heapApi B).kfree ptr (some q) = (r, some (HeapSystem.released q.live ptr (r, t))) := by
  simp only [heapApi, Option.bind_some, h, Option.map_some]

/-- The heap satisfies its invariant. -/
def HeapOk (h : Option (HeapSystem σ)) : Prop := ∃ q l, h = some q ∧ HeapInv q l

/-- The live allocations of the heap. -/
def liveOf (h : Option (HeapSystem σ)) : Set (ℕ × ℕ) := h.elim ∅ HeapSystem.live

/-- A new allocation is fresh. -/
theorem Allocated.fresh {size p : ℕ} {t : HeapState σ} {l' : List Seg} (h : HeapInv q l)
    (ha : Allocated B size q.heap l p t l') (hp : p ≠ 0) (n : ℕ) : (p, n) ∉ q.live := by
  intro hmem
  obtain ⟨len, -, hin⟩ := h.accounts.sized _ hmem
  cases ha with
  | found ht =>
    exact Seg.not_mem_inUse_of_free headerSize (by decide) ht.fits.1 hin ht.payload
  | grown _ hu hl ht =>
    have hin' : (p, len) ∈ Seg.inUse headerSize heapStart
        (Seg.merge headerSize (l ++ [freshBlock (growthPages size)])) := by
      rw [Seg.inUse_merge, Seg.inUse_append]
      exact List.mem_append_left _ hin
    rw [hl] at hin'
    exact Seg.not_mem_inUse_of_free headerSize (by decide) ht.fits.1 hin' ht.payload
  | ceiling => exact hp rfl
  | refused => exact hp rfl

/-- **The kernel's heap is what the scheduler relies on.** -/
theorem heapApi_spec : HeapSpec (heapApi B) HeapOk liveOf := by
  have hcall : ∀ {h : Option (HeapSystem σ)}, HeapOk h → ∃ q l p t l', h = some q ∧ HeapInv q l ∧
      (heapApi B).kmalloc taskStackSize h =
        (p, some (HeapSystem.allocated q.live taskStackSize (p, t))) ∧
      Allocated B (align8 taskStackSize) q.heap l p t l' := by
    rintro h ⟨q, l, rfl, hinv⟩
    obtain ⟨p, t, l', hrun, ha⟩ := runs_kmalloc (B := B) (n := taskStackSize) hinv.tiled (by decide)
      (by decide) (growthInWindow_of_le hinv.tiled (by decide))
    exact ⟨q, l, p, t, l', rfl, hinv, heapApi_kmalloc hrun.1, ha⟩
  refine ⟨fun h hI => ?_, fun h hI => ?_, ?_, ?_, ?_⟩
  · obtain ⟨q, l, p, t, l', rfl, hinv, e, ha⟩ := hcall hI
    obtain ⟨hn, hle, -⟩ := payloadSize_align8 (n := taskStackSize) (by decide) (by decide)
    rw [e]
    exact ⟨_, l', rfl, HeapInv.allocated hinv hn hle ha⟩
  · obtain ⟨q, l, p, t, l', rfl, hinv, e, ha⟩ := hcall hI
    rw [e]
    by_cases hp : p = 0
    · exact Or.inl ⟨hp, if_pos hp⟩
    · exact Or.inr ⟨hp, fun n => ha.fresh hinv hp n, if_neg hp⟩
  · rintro h ⟨q, l, rfl, hinv⟩ b hb
    obtain ⟨size, hle, hin⟩ := hinv.accounts.sized b hb
    have := (Seg.inUse_bounds headerSize hin).2
    have := hinv.tiled.tiles
    have := hinv.tiled.brk_lt
    omega
  · rintro h ⟨q, l, rfl, hinv⟩ b hb
    obtain ⟨pre, x, post, rfl, hx, -, hp⟩ := hinv.exists_block hb
    obtain ⟨m, t, hrun, -⟩ := runs_kfree (B := B) hinv.tiled hx
    rw [← hp] at hrun
    obtain ⟨-, l', hnext⟩ := HeapInv.kfree (B := B) hinv hb hrun.1
    rw [heapApi_kfree hrun.1]
    refine ⟨rfl, ⟨_, l', rfl, hnext⟩, Set.ext fun c => and_congr_right fun hc => ?_⟩
    exact not_congr ⟨fun e => hinv.accounts.unique c hc b hb e, fun e => congrArg Prod.fst e⟩
  · rintro h ⟨q, l, rfl, hinv⟩ b hb a v h1 h2
    refine ⟨⟨_, l, rfl, HeapInv.write hinv fun y hy => ?_⟩, rfl⟩
    refine Mem.write32_apply_of_disjoint _ _ (by_contra fun hin => hy ⟨b, hb, ?_⟩)
    omega

end JarvisOS
