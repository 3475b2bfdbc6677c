import JarvisOS.Foundations.Segments
import JarvisOS.Heap.Code

/-!
# The block list in memory

`IsHeader m a x n` says that memory `m` has at `a` the header of a block `x` with link `n`, and
`Holds m a l t` that it has the headers of the blocks `l` one after the other from `a` on, each
linked to the following one and the last one to `t`. The accessors of the heap code are executed
against these two predicates (`runs_getSize` and its siblings), and `coalesce` is shown to turn a
list into its merge, writing only sizes and links of blocks that remain (`runs_coalesce`).
-/

namespace JarvisOS

open Foundations HeapOp Prog

/-! ## Headers -/

theorem headerSize_eq : headerSize = 16 := rfl

/-- The header of block `x` at `a`, linked to `n`. -/
structure IsHeader (m : Mem) (a : ℕ) (x : Seg) (n : ℕ) : Prop where
  magic : m.read32 a = blockMagic
  size : m.read32 (a + 4) = x.size
  next : m.read32 (a + 8) = n
  free : m.read32 (a + 12) = if x.free then 1 else 0

namespace IsHeader

variable {m m' : Mem} {a n v : ℕ} {x : Seg}

/-- A header depends on its sixteen bytes only. -/
theorem congr (h : IsHeader m a x n) (hm : ∀ y, a ≤ y → y < a + headerSize → m' y = m y) :
    IsHeader m' a x n := by
  have word : ∀ k, k ≤ 12 → m'.read32 (a + k) = m.read32 (a + k) := fun k hk =>
    Mem.read32_congr fun y _ _ => hm y (by omega) (by rw [headerSize_eq]; omega)
  exact ⟨(word 0 (by omega)).trans h.magic, (word 4 (by omega)).trans h.size,
    (word 8 (by omega)).trans h.next, (word 12 le_rfl).trans h.free⟩

/-- A link is a word. -/
theorem next_lt (h : IsHeader m a x n) : n < 2 ^ 32 := by
  rw [← h.next]
  exact Mem.read32_lt _ _

theorem write_of_disjoint (h : IsHeader m a x n) {c : ℕ} (hc : c + 4 ≤ a ∨ a + headerSize ≤ c) :
    IsHeader (m.write32 c v) a x n :=
  h.congr fun _ _ _ => Mem.write32_apply_of_disjoint m v (by omega)

theorem setSize (h : IsHeader m a x n) (hv : v < 2 ^ 32) :
    IsHeader (m.write32 (a + 4) v) a ⟨v, x.free⟩ n where
  magic := (Mem.read32_write32_of_disjoint m v (by omega)).trans h.magic
  size := (Mem.read32_write32_same m _ v).trans (u32_of_lt hv)
  next := (Mem.read32_write32_of_disjoint m v (by omega)).trans h.next
  free := (Mem.read32_write32_of_disjoint m v (by omega)).trans h.free

theorem setNext (h : IsHeader m a x n) (hv : v < 2 ^ 32) :
    IsHeader (m.write32 (a + 8) v) a x v where
  magic := (Mem.read32_write32_of_disjoint m v (by omega)).trans h.magic
  size := (Mem.read32_write32_of_disjoint m v (by omega)).trans h.size
  next := (Mem.read32_write32_same m _ v).trans (u32_of_lt hv)
  free := (Mem.read32_write32_of_disjoint m v (by omega)).trans h.free

theorem setFree (h : IsHeader m a x n) (b : Bool) :
    IsHeader (m.write32 (a + 12) (if b then 1 else 0)) a ⟨x.size, b⟩ n where
  magic := (Mem.read32_write32_of_disjoint m _ (by omega)).trans h.magic
  size := (Mem.read32_write32_of_disjoint m _ (by omega)).trans h.size
  next := (Mem.read32_write32_of_disjoint m _ (by omega)).trans h.next
  free := (Mem.read32_write32_same m _ _).trans (u32_of_lt (by split_ifs <;> decide))

/-- Memory after the four words of a header have been written, in this order. -/
def put (m : Mem) (a : ℕ) (x : Seg) (n : ℕ) : Mem :=
  (((m.write32 a blockMagic).write32 (a + 4) x.size).write32 (a + 8) n).write32 (a + 12)
    (if x.free then 1 else 0)

theorem put_apply_of_disjoint (m : Mem) {a y : ℕ} (x : Seg) (n : ℕ)
    (h : y < a ∨ a + headerSize ≤ y) : put m a x n y = m y := by
  rw [headerSize_eq] at h
  unfold put
  repeat rw [Mem.write32_apply_of_disjoint _ _ (by omega)]

/-- Writing the four words makes a header. -/
theorem of_put (m : Mem) (a : ℕ) (x : Seg) (hs : x.size < 2 ^ 32) (hn : n < 2 ^ 32) :
    IsHeader (put m a x n) a x n where
  magic := by
    rw [put, Mem.read32_write32_of_disjoint _ _ (by omega),
      Mem.read32_write32_of_disjoint _ _ (by omega), Mem.read32_write32_of_disjoint _ _ (by omega),
      Mem.read32_write32_same]
    rfl
  size := by
    rw [put, Mem.read32_write32_of_disjoint _ _ (by omega),
      Mem.read32_write32_of_disjoint _ _ (by omega), Mem.read32_write32_same, u32_of_lt hs]
  next := by
    rw [put, Mem.read32_write32_of_disjoint _ _ (by omega), Mem.read32_write32_same, u32_of_lt hn]
  free := (Mem.read32_write32_same _ _ _).trans (u32_of_lt (by split_ifs <;> decide))

end IsHeader

/-! ## Lists of headers -/

/-- The address of the first of the blocks `l` laid out from `a` on, or `t` if there is none. -/
def linkTo (a : ℕ) : List Seg → ℕ → ℕ
  | [], t => t
  | _ :: _, _ => a

@[simp] theorem linkTo_nil (a t : ℕ) : linkTo a [] t = t := rfl

@[simp] theorem linkTo_cons (a t : ℕ) (x : Seg) (l : List Seg) : linkTo a (x :: l) t = a := rfl

@[simp] theorem linkTo_append_cons (a t : ℕ) (pre post : List Seg) (x : Seg) :
    linkTo a (pre ++ x :: post) t = a := by
  cases pre <;> rfl

/-- Memory holds the headers of `l` from `a` on, the last one linked to `t`. -/
def Holds (m : Mem) : ℕ → List Seg → ℕ → Prop
  | _, [], _ => True
  | a, x :: l, t =>
    IsHeader m a x (linkTo (a + headerSize + x.size) l t) ∧ Holds m (a + headerSize + x.size) l t

namespace Holds

variable {m m' : Mem} {a t : ℕ} {x : Seg} {l l' : List Seg}

/-- What a list holds depends on its headers only. -/
theorem congr_headers (h : Holds m a l t) (hm : ∀ b ∈ Seg.starts headerSize a l,
    ∀ y, b ≤ y → y < b + headerSize → m' y = m y) : Holds m' a l t := by
  induction l generalizing a with
  | nil => trivial
  | cons x l ih =>
    rw [Seg.starts_cons, List.forall_mem_cons] at hm
    exact ⟨h.1.congr hm.1, ih h.2 hm.2⟩

/-- What a list holds depends on its span only. -/
theorem congr (h : Holds m a l t) (hm : ∀ y, a ≤ y → y < a + Seg.span headerSize l → m' y = m y) :
    Holds m' a l t :=
  h.congr_headers fun b hb y h1 h2 => by
    have := Seg.starts_bounds headerSize hb
    exact hm y (by omega) (by omega)

/-- **A list laid out in two parts.** -/
theorem append_iff : Holds m a (l ++ l') t ↔
    Holds m a l (linkTo (a + Seg.span headerSize l) l' t) ∧
      Holds m (a + Seg.span headerSize l) l' t := by
  induction l generalizing a with
  | nil => exact ⟨fun h => ⟨trivial, h⟩, fun h => h.2⟩
  | cons y l ih =>
    have e : a + headerSize + y.size + Seg.span headerSize l =
        a + Seg.span headerSize (y :: l) := by
      rw [Seg.span_cons]
      omega
    have hl : linkTo (a + headerSize + y.size) (l ++ l') t = linkTo (a + headerSize + y.size) l
        (linkTo (a + Seg.span headerSize (y :: l)) l' t) := by
      cases l with
      | nil => rw [← e]; rfl
      | cons z l => rfl
    rw [List.cons_append, Holds, Holds, ih, e, hl, and_assoc]

/-- Every block of the list has its header in memory. -/
theorem header_of_mem (h : Holds m a l t) {b : ℕ} (hb : b ∈ Seg.starts headerSize a l) :
    ∃ pre y post, l = pre ++ y :: post ∧ b = a + Seg.span headerSize pre ∧
      IsHeader m b y (linkTo (b + headerSize + y.size) post t) := by
  induction l generalizing a with
  | nil => simp at hb
  | cons x l ih =>
    rw [Seg.starts_cons, List.mem_cons] at hb
    rcases hb with rfl | hb
    · exact ⟨[], x, l, rfl, rfl, h.1⟩
    · obtain ⟨pre, y, post, rfl, hb', hy⟩ := ih h.2 hb
      refine ⟨x :: pre, y, post, rfl, ?_, hy⟩
      rw [Seg.span_cons, hb']
      omega

end Holds

/-! ## Executing the accessors -/

/-- The page at `v` lies in the heap's window. -/
def InHeapWindow (v : ℕ) : Prop := heapStart ≤ v ∧ v + pageSize ≤ heapStart + heapMax

/-- What the heap code may do: read and write words at the addresses in `P`, and map the pages
in `Q`. -/
def Confined (P Q : ℕ → Prop) : HeapOp → ℕ → Prop
  | load a, _ => P a
  | store a _, _ => P a
  | pagingMap v _ _, r => r ≠ 0 → Q v
  | _, _ => True

/-- Confined to the words inside `[lo, hi)` and to the pages of the window. -/
abbrev InWindow (lo hi : ℕ) : HeapOp → ℕ → Prop :=
  Confined (fun a => lo ≤ a ∧ a + 4 ≤ hi) InHeapWindow

/-- `S` lets the words inside `[lo, hi)` be read. -/
def LoadsIn (lo hi : ℕ) (S : HeapOp → ℕ → Prop) : Prop := ∀ a r, lo ≤ a → a + 4 ≤ hi → S (load a) r

theorem loadsIn_inWindow {lo hi : ℕ} : LoadsIn lo hi (InWindow lo hi) := fun _ _ h1 h2 => ⟨h1, h2⟩

theorem Confined.mono {P P' Q : ℕ → Prop} (hP : ∀ a, P a → P' a) (o : HeapOp) (r : ℕ)
    (h : Confined P Q o r) : Confined P' Q o r := by
  cases o with
  | load a => exact hP a h
  | store a v => exact hP a h
  | _ => exact h

theorem InWindow.mono {lo hi hi' : ℕ} (hle : hi ≤ hi') (o : HeapOp) (r : ℕ)
    (h : InWindow lo hi o r) :
    InWindow lo hi' o r :=
  Confined.mono (fun _ ha => ⟨ha.1, ha.2.trans hle⟩) o r h

/-- A walk that has fuel for the headers from `a` to `hi` has some left at `a`. -/
theorem exists_fuel {a hi fuel : ℕ} (ha : a ≤ hi) (hfuel : hi < a + headerSize * fuel) :
    ∃ rest, fuel = rest + 1 := by
  refine Nat.exists_eq_add_one.2 (Nat.pos_of_ne_zero fun h => ?_)
  rw [h, Nat.mul_zero] at hfuel
  omega

/-- There is room for a header at `b`. -/
def Room (lo hi b : ℕ) : Prop := lo ≤ b ∧ b + headerSize ≤ hi ∧ hi < 2 ^ 32

namespace Room

variable {lo hi b k : ℕ}

/-- The address of a field does not wrap. -/
theorem field (h : Room lo hi b) (hk : k ≤ 12) : u32 (b + k) = b + k := by
  obtain ⟨-, h2, h3⟩ := h
  rw [headerSize_eq] at h2
  exact u32_of_lt (by omega)

theorem ne_zero (h : Room heapStart hi b) : b ≠ 0 := (lt_of_lt_of_le (by decide) h.1).ne'

theorem le (h : Room lo hi b) : b ≤ hi := (Nat.le_add_right _ _).trans h.2.1

/-- The field lies in the range. -/
theorem inside (h : Room lo hi b) (hk : k ≤ 12) : lo ≤ b + k ∧ b + k + 4 ≤ hi := by
  obtain ⟨h1, h2, -⟩ := h
  rw [headerSize_eq] at h2
  omega

end Room

namespace HeapState

variable {σ : Type}

/-- The state with other bytes in the window. -/
def setMem (s : HeapState σ) (m : Mem) : HeapState σ := { s with mem := m }

@[simp] theorem setMem_mem (s : HeapState σ) (m : Mem) : (s.setMem m).mem = m := rfl
@[simp] theorem setMem_head (s : HeapState σ) (m : Mem) : (s.setMem m).head = s.head := rfl
@[simp] theorem setMem_brk (s : HeapState σ) (m : Mem) : (s.setMem m).brk = s.brk := rfl
@[simp] theorem setMem_ready (s : HeapState σ) (m : Mem) : (s.setMem m).ready = s.ready := rfl
@[simp] theorem setMem_env (s : HeapState σ) (m : Mem) : (s.setMem m).env = s.env := rfl
@[simp] theorem setMem_out (s : HeapState σ) (m : Mem) : (s.setMem m).out = s.out := rfl
@[simp] theorem setMem_setMem (s : HeapState σ) (m m' : Mem) :
    (s.setMem m).setMem m' = s.setMem m' := rfl

end HeapState

section Accessors

variable {σ α : Type} {B : Backing σ} {P Q : ℕ → Prop} {lo hi b n v : ℕ} {x : Seg} {f : ℕ → HeapM α}
  {s t : HeapState σ} {a : α}

theorem runs_getReady : Runs (heapAct B) (Confined P Q) (perform getReady >>= f) s a t ↔
    Runs (heapAct B) (Confined P Q) (f s.ready) s a t :=
  runs_act.trans (and_iff_right trivial)

theorem runs_getHead : Runs (heapAct B) (Confined P Q) (perform getHead >>= f) s a t ↔
    Runs (heapAct B) (Confined P Q) (f s.head) s a t :=
  runs_act.trans (and_iff_right trivial)

theorem runs_getBrk : Runs (heapAct B) (Confined P Q) (perform getBrk >>= f) s a t ↔
    Runs (heapAct B) (Confined P Q) (f s.brk) s a t :=
  runs_act.trans (and_iff_right trivial)

theorem runs_setBrk : Runs (heapAct B) (Confined P Q) (perform (setBrk v) >>= f) s a t ↔
    Runs (heapAct B) (Confined P Q) (f 0) { s with brk := v } a t :=
  runs_act.trans (and_iff_right trivial)

theorem runs_setHead : Runs (heapAct B) (Confined P Q) (perform (setHead v) >>= f) s a t ↔
    Runs (heapAct B) (Confined P Q) (f 0) { s with head := v } a t :=
  runs_act.trans (and_iff_right trivial)

theorem runs_setReady : Runs (heapAct B) (Confined P Q) (perform (setReady v) >>= f) s a t ↔
    Runs (heapAct B) (Confined P Q) (f 0) { s with ready := v } a t :=
  runs_act.trans (and_iff_right trivial)

theorem runs_print {str : String} :
    Runs (heapAct B) (Confined P Q) (perform (print str) >>= f) s a t ↔
      Runs (heapAct B) (Confined P Q) (f 0) { s with out := s.out ++ [.str str] } a t :=
  runs_act.trans (and_iff_right trivial)

theorem runs_printHex : Runs (heapAct B) (Confined P Q) (perform (printHex v) >>= f) s a t ↔
    Runs (heapAct B) (Confined P Q) (f 0) { s with out := s.out ++ [.hex v] } a t :=
  runs_act.trans (and_iff_right trivial)

/-- Reading a word of a header. -/
theorem runs_load {S : HeapOp → ℕ → Prop} (hS : LoadsIn lo hi S) (hr : Room lo hi b) {k : ℕ}
    (hk : k ≤ 12) : Runs (heapAct B) S (perform (load (u32 (b + k))) >>= f) s a t ↔
      Runs (heapAct B) S (f (s.mem.read32 (b + k))) s a t := by
  rw [perform_bind, runs_act, hr.field hk]
  exact and_iff_right (hS _ _ (hr.inside hk).1 (hr.inside hk).2)

theorem runs_getMagic (hr : Room lo hi b) :
    Runs (heapAct B) (InWindow lo hi) (getMagic b >>= f) s a t ↔
      Runs (heapAct B) (InWindow lo hi) (f (s.mem.read32 b)) s a t := by
  rw [getMagic, perform_bind, runs_act]
  exact and_iff_right (hr.inside (Nat.zero_le 12))

theorem runs_getSize (hr : Room lo hi b) (hx : IsHeader s.mem b x n) :
    Runs (heapAct B) (InWindow lo hi) (getSize b >>= f) s a t ↔
      Runs (heapAct B) (InWindow lo hi) (f x.size) s a t := by
  rw [getSize, runs_load loadsIn_inWindow hr (by decide), hx.size]

theorem runs_getNext (hr : Room lo hi b) (hx : IsHeader s.mem b x n) :
    Runs (heapAct B) (InWindow lo hi) (getNext b >>= f) s a t ↔
      Runs (heapAct B) (InWindow lo hi) (f n) s a t := by
  rw [getNext, runs_load loadsIn_inWindow hr (by decide), hx.next]

theorem runs_getFree_word (hr : Room lo hi b) :
    Runs (heapAct B) (InWindow lo hi) (getFree b >>= f) s a t ↔
      Runs (heapAct B) (InWindow lo hi) (f (s.mem.read32 (b + 12))) s a t := by
  rw [getFree, runs_load loadsIn_inWindow hr le_rfl]

theorem runs_getFree (hr : Room lo hi b) (hx : IsHeader s.mem b x n) :
    Runs (heapAct B) (InWindow lo hi) (getFree b >>= f) s a t ↔
      Runs (heapAct B) (InWindow lo hi) (f (if x.free then 1 else 0)) s a t := by
  rw [runs_getFree_word hr, hx.free]

theorem runs_setMagic (hr : Room lo hi b) :
    Runs (heapAct B) (InWindow lo hi) (setMagic b v >>= f) s a t ↔
      Runs (heapAct B) (InWindow lo hi) (f 0) (s.setMem (s.mem.write32 b v)) a t := by
  rw [setMagic, perform_bind, runs_act]
  exact and_iff_right (hr.inside (Nat.zero_le 12))

theorem runs_setSize (hr : Room lo hi b) :
    Runs (heapAct B) (InWindow lo hi) (setSize b v >>= f) s a t ↔
      Runs (heapAct B) (InWindow lo hi) (f 0) (s.setMem (s.mem.write32 (b + 4) v)) a t := by
  rw [setSize, perform_bind, runs_act, hr.field (by decide)]
  exact and_iff_right (hr.inside (by decide))

theorem runs_setNext (hr : Room lo hi b) :
    Runs (heapAct B) (InWindow lo hi) (setNext b v >>= f) s a t ↔
      Runs (heapAct B) (InWindow lo hi) (f 0) (s.setMem (s.mem.write32 (b + 8) v)) a t := by
  rw [setNext, perform_bind, runs_act, hr.field (by decide)]
  exact and_iff_right (hr.inside (by decide))

theorem runs_setFree (hr : Room lo hi b) :
    Runs (heapAct B) (InWindow lo hi) (setFree b v >>= f) s a t ↔
      Runs (heapAct B) (InWindow lo hi) (f 0) (s.setMem (s.mem.write32 (b + 12) v)) a t := by
  rw [setFree, perform_bind, runs_act, hr.field le_rfl]
  exact and_iff_right (hr.inside le_rfl)

end Accessors

end JarvisOS
