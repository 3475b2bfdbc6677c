import JarvisOS.Foundations.ObjectStore
import JarvisOS.Heap.FirstFit
import JarvisOS.Heap.Magic

/-!
# The heap as a store of objects

What the heap is for: its users put bytes into the blocks they got and find them there again.
`HeapRun B s ops` says that from a successful `heap_init` the users have done `ops` and the heap is
now in the state `s`. The operations are those of an object store: `kmalloc` answers with the
address of a new object, of whatever bytes stand there, and nothing the heap code does, neither the
headers that it writes nor the pages that it maps, touches a byte of another object
(`Allocated.mem_payload`, `Released.mem_payload`). So memory shows the store after `ops`
(`heap_refines_store`): a byte read is the byte its owner wrote last.
-/

namespace JarvisOS

open Foundations HeapOp Prog

variable {σ : Type} {B : Backing σ} {s t : HeapState σ} {l l' pre post : List Seg} {x : Seg}
  {m : Mem}

/-! ## What the calls leave alone -/

/-- The address lies in a payload in use of the list. -/
def InPayload (l : List Seg) (a : ℕ) : Prop :=
  ∃ c ∈ Seg.inUse headerSize heapStart l, c.1 ≤ a ∧ a < c.1 + c.2

/-- A payload in use is away from every header. -/
theorem InPayload.apart {a : ℕ} (h : InPayload l a) :
    ∀ b ∈ Seg.starts headerSize heapStart l, a < b ∨ b + headerSize ≤ a := by
  obtain ⟨c, hc, h1, h2⟩ := h
  intro b hb
  have := Seg.inUse_apart_starts headerSize hc hb
  omega

theorem InPayload.lt_brk {a : ℕ} (h : InPayload l a) (hs : Tiled s l) : a < s.brk := by
  obtain ⟨c, hc, -, h2⟩ := h
  have := (Seg.inUse_bounds headerSize hc).2
  have := hs.tiles
  omega

theorem Taken.mem_payload {size p a : ℕ} (ht : Taken size s pre x post p t)
    (ha : InPayload (pre ++ x :: post) a) : t.mem a = s.mem a := by
  obtain ⟨c, hc, h1, h2⟩ := ha
  obtain ⟨big, -, hmem⟩ := Seg.mem_inUse_carve headerSize (a := heapStart) (t := minSplit) pre post
    ht.fits
  exact ht.frame a (InPayload.apart ⟨c, (hmem c).2 (Or.inr hc), h1, h2⟩)

/-- The payloads in use after a growth. -/
theorem inUse_extended (l : List Seg) (pages : ℕ) :
    Seg.inUse headerSize heapStart (l ++ [freshBlock pages]) = Seg.inUse headerSize heapStart
      l := by
  rw [Seg.inUse_append, Seg.inUse_cons_free headerSize rfl, Seg.inUse_nil, List.append_nil]

theorem Extended.mem_payload {pages a : ℕ} (ht : Extended B s l pages m t) (h : Tiled s l)
    (ha : InPayload l a) : t.mem a = s.mem a := by
  have hceil := ht.ceiling
  have hwl := window_lt
  have ha' : InPayload (l ++ [freshBlock pages]) a := by
    rwa [InPayload, inUse_extended]
  calc t.mem a = m a := ht.links.headersOnly a fun b hb =>
        ha'.apart b (Seg.starts_merge_subset headerSize hb)
    _ = (mapPages B pages s.brk s).2.mem a := ht.header a ha'.apart
    _ = s.mem a := mapPages_mem_below h (by rw [ht.granted]; omega) (ha.lt_brk h)

/-- **`kmalloc` touches no payload in use.** -/
theorem Allocated.mem_payload {size p a : ℕ} (ht : Allocated B size s l p t l') (h : Tiled s l)
    (ha : InPayload l a) : t.mem a = s.mem a := by
  cases ht with
  | found ht => exact ht.mem_payload ha
  | @grown l pre post x p m u t hno hu hl ht =>
    have ha' : InPayload (pre ++ x :: post) a := by
      rwa [InPayload, ← hl, Seg.inUse_merge, inUse_extended]
    exact (ht.mem_payload ha').trans (hu.mem_payload h ha)
  | ceiling => rfl
  | refused _ _ _ hw => exact mapPages_mem_below h (hw.trans window_lt.le) (ha.lt_brk h)

/-- **`kfree` touches no payload that stays in use.** -/
theorem Released.mem_payload {a : ℕ} (ht : Released s pre x post m t)
    (ha : InPayload (pre ++ x :: post) a) : t.mem a = s.mem a := by
  have hstarts : Seg.starts headerSize heapStart (pre ++ ⟨x.size, true⟩ :: post) =
      Seg.starts headerSize heapStart (pre ++ x :: post) := by
    rw [Seg.starts_append, Seg.starts_append]
    rfl
  have hb : heapStart + Seg.span headerSize pre ∈ Seg.starts headerSize heapStart
    (pre ++ x :: post) := by
    rw [Seg.starts_append]
    exact List.mem_append_right _ List.mem_cons_self
  calc t.mem a = m a := ht.links.headersOnly a fun b hb =>
        ha.apart b (hstarts ▸ Seg.starts_merge_subset headerSize hb)
    _ = s.mem a := ht.header a fun b hb' => List.mem_singleton.1 hb' ▸ ha.apart _ hb

/-! ## Runs -/

/-- The users of the heap have done `ops` since a successful `heap_init`. -/
inductive HeapRun (B : Backing σ) : HeapState σ → List StoreOp → Prop
  | init {m : Mem} {e : σ} {s : HeapState σ}
      (h : run (heapAct B) heapInit (.zeroed m e) = some ((), s))
      (hready : s.ready = 1) : HeapRun B s []
  /-- `kmalloc n` answers with an object at `p`, of the bytes that stand there. -/
  | kmalloc {s t : HeapState σ} {ops : List StoreOp} {n p : ℕ} (hs : HeapRun B s ops) (h1 : 1 ≤ n)
      (h2 : n ≤ heapMax) (h : run (heapAct B) (kmalloc n) s = some (p, t)) (hp : p ≠ 0) :
      HeapRun B t (ops ++ [.alloc p (t.mem.bytes p n)])
  /-- `kmalloc n` refuses. -/
  | refused {s t : HeapState σ} {ops : List StoreOp} {n : ℕ} (hs : HeapRun B s ops) (h1 : 1 ≤ n)
      (h2 : n ≤ heapMax) (h : run (heapAct B) (kmalloc n) s = some (0, t)) : HeapRun B t ops
  | kfree {s t : HeapState σ} {ops : List StoreOp} {p r : ℕ} (hs : HeapRun B s ops)
      (hp : ObjectStore.after ops p ≠ none) (h : run (heapAct B) (kfree p) s = some (r, t)) :
      HeapRun B t (ops ++ [.free p])
  /-- The owner of the object at `p` writes a byte of it. -/
  | write {s : HeapState σ} {ops : List StoreOp} {p i : ℕ} (v : UInt8) (hs : HeapRun B s ops)
      (hb : (ObjectStore.after ops).Byte p (p + i)) :
      HeapRun B (s.setMem (s.mem.write8 (p + i) v)) (ops ++ [.write p i v])
  /-- The frame allocator and the page tables change behind the heap. -/
  | backing {s : HeapState σ} {ops : List StoreOp} (e : σ) (hs : HeapRun B s ops) :
      HeapRun B { s with env := e } ops

/-- The live allocations that a store stands for. -/
def objectsOf (S : ObjectStore) : Set (ℕ × ℕ) :=
  {b | ∃ bytes, S b.1 = some bytes ∧ bytes.length = b.2}

section ObjectsOf

variable {S : ObjectStore} {p i : ℕ} {v : UInt8} {bytes : List UInt8}

@[simp] theorem objectsOf_empty : objectsOf ObjectStore.empty = ∅ :=
  Set.eq_empty_of_forall_notMem fun _ ⟨_, h, _⟩ => nomatch h

theorem objectsOf_alloc (hp : S p = none) :
    objectsOf (S.apply (.alloc p bytes)) = insert (p, bytes.length) (objectsOf S) := by
  ext ⟨q, n⟩
  by_cases h : q = p
  · subst h
    simp [objectsOf, hp, eq_comm]
  · simp [objectsOf, h]

theorem objectsOf_free : objectsOf (S.apply (.free p)) = {b ∈ objectsOf S | b.1 ≠ p} := by
  ext ⟨q, n⟩
  by_cases h : q = p
  · subst h
    simp [objectsOf]
  · simp [objectsOf, h]

theorem objectsOf_write : objectsOf (S.apply (.write p i v)) = objectsOf S := by
  ext ⟨q, n⟩
  by_cases h : q = p
  · subst h
    simp [objectsOf]
  · simp [objectsOf, h]

/-- The bytes of the objects lie in payloads in use. -/
theorem HeapInv.inPayload (h : HeapInv ⟨s, objectsOf S⟩ l) {q a : ℕ} (ha : S.Byte q a) :
    InPayload l a := by
  obtain ⟨bytes, hq, h1, h2⟩ := ha
  obtain ⟨size, hle, hin⟩ := h.accounts.sized (q, bytes.length) ⟨bytes, hq, rfl⟩
  exact ⟨_, hin, h1, h2.trans_le (Nat.add_le_add_left hle q)⟩

end ObjectsOf

/-- **The invariant of a run**: the objects are the live allocations, memory shows them, and all
that was done is legal in the store. -/
structure RunInv (s : HeapState σ) (ops : List StoreOp) (l : List Seg) : Prop where
  heap : HeapInv ⟨s, objectsOf (ObjectStore.after ops)⟩ l
  shown : (ObjectStore.after ops).ShownBy s.mem
  legal : ObjectStore.AllLegal ops

namespace RunInv

variable {ops : List StoreOp} {n p r i : ℕ}

/-- An answer of `kmalloc` is the address of a new object, away from the others. -/
theorem legal_alloc (h : RunInv s ops l) (hn : PayloadSize (align8 n)) (hle : n ≤ align8 n)
    (ha : Allocated B (align8 n) s l p t l') (hp : p ≠ 0) :
    (ObjectStore.after ops).Legal (.alloc p (t.mem.bytes p n)) := by
  have hfresh : ∀ q bytes, ObjectStore.after ops q = some bytes → q ≠ p := fun q bytes hq => by
    obtain ⟨size, -, hin⟩ := h.heap.accounts.sized (q, bytes.length) ⟨bytes, hq, rfl⟩
    exact ha.ne_of_inUse hin
  refine ⟨Option.eq_none_iff_forall_ne_some.2 fun bytes hb => hfresh p bytes hb rfl, ?_⟩
  rintro a h1 h2 q ⟨bytes, hq, h3, h4⟩
  have hnew := (h.heap.allocated hn hle ha).accounts
  rw [if_neg hp] at hnew
  have hlive : (q, bytes.length) ∈ objectsOf (ObjectStore.after ops) := ⟨bytes, hq, rfl⟩
  have := hnew.disjoint (Set.mem_insert _ _) (Set.mem_insert_of_mem _ hlive)
    fun e => hfresh q bytes hq (Prod.mk.inj e).1.symm
  rw [Mem.length_bytes] at h2
  simp only at this
  omega

theorem kmalloc (h : RunInv s ops l) (h1 : 1 ≤ n) (h2 : n ≤ heapMax)
    (hrun : run (heapAct B) (kmalloc n) s = some (p, t)) (hp : p ≠ 0) :
    ∃ l', RunInv t (ops ++ [.alloc p (t.mem.bytes p n)]) l' := by
  have h2' : n < 2 ^ 31 := h2.trans_lt (by decide)
  obtain ⟨p', t', l', hrun', ha⟩ := runs_kmalloc (B := B) h.heap.tiled h1 h2'
    (growthInWindow_of_le h.heap.tiled h2)
  obtain ⟨rfl, rfl⟩ := hrun'.unique hrun
  obtain ⟨hn, hle, -⟩ := payloadSize_align8 h1 h2'
  have hlegal := h.legal_alloc hn hle ha hp
  have hinv := h.heap.allocated hn hle ha
  have hmem : (ObjectStore.after ops).ShownBy t.mem :=
    h.shown.congr fun q a hb => ha.mem_payload h.heap.tiled (h.heap.inPayload hb)
  rw [if_neg hp] at hinv
  refine ⟨l', ?_, ?_, h.legal.concat hlegal⟩
  · rwa [ObjectStore.after_concat, objectsOf_alloc hlegal.1, Mem.length_bytes]
  · rw [ObjectStore.after_concat]
    exact hmem.alloc p n

theorem refused (h : RunInv s ops l) (h1 : 1 ≤ n) (h2 : n ≤ heapMax)
    (hrun : run (heapAct B) (JarvisOS.kmalloc n) s = some (0, t)) : ∃ l', RunInv t ops l' := by
  have h2' : n < 2 ^ 31 := h2.trans_lt (by decide)
  obtain ⟨p', t', l', hrun', ha⟩ := runs_kmalloc (B := B) h.heap.tiled h1 h2'
    (growthInWindow_of_le h.heap.tiled h2)
  obtain ⟨rfl, rfl⟩ := hrun'.unique hrun
  obtain ⟨hn, hle, -⟩ := payloadSize_align8 h1 h2'
  have hinv := h.heap.allocated hn hle ha
  rw [if_pos rfl] at hinv
  exact ⟨l', hinv, h.shown.congr fun q a hb => ha.mem_payload h.heap.tiled (h.heap.inPayload hb),
    h.legal⟩

theorem kfree (h : RunInv s ops l) (hp : ObjectStore.after ops p ≠ none)
    (hrun : run (heapAct B) (kfree p) s = some (r, t)) : ∃ l', RunInv t (ops ++ [.free p]) l' := by
  obtain ⟨bytes, hbytes⟩ := Option.ne_none_iff_exists'.1 hp
  obtain ⟨pre, x, post, rfl, hx, -, hb⟩ := h.heap.exists_block (b := (p, bytes.length))
    ⟨bytes, hbytes, rfl⟩
  obtain ⟨m, t', hrun', hr⟩ := runs_kfree (B := B) h.heap.tiled hx
  rw [← hb] at hrun'
  obtain ⟨rfl, rfl⟩ := hrun'.unique hrun
  have hmem : (ObjectStore.after ops).ShownBy t.mem :=
    h.shown.congr fun q a hq => hr.mem_payload (h.heap.inPayload hq)
  refine ⟨_, ⟨hr.tiled h.heap.tiled, ?_⟩, ?_, h.legal.concat hp⟩
  · have hacc := h.heap.accounts.release hx
    rw [← hb] at hacc
    rwa [ObjectStore.after_concat, objectsOf_free]
  · rw [ObjectStore.after_concat]
    exact hmem.free p

theorem write (h : RunInv s ops l) (v : UInt8) (hb : (ObjectStore.after ops).Byte p (p + i)) :
    RunInv (s.setMem (s.mem.write8 (p + i) v)) (ops ++ [.write p i v]) l := by
  refine ⟨?_, ?_, h.legal.concat hb⟩
  · rw [ObjectStore.after_concat, objectsOf_write]
    refine h.heap.write fun a ha => Mem.write8_apply_of_ne _ _ fun e => ha ?_
    obtain ⟨bytes, hp, h1, h2⟩ := hb
    exact ⟨(p, bytes.length), ⟨bytes, hp, rfl⟩, e ▸ h1, e ▸ h2⟩
  · rw [ObjectStore.after_concat]
    exact h.shown.write (.after h.legal) hb

end RunInv

/-- **Every run keeps the invariant.** -/
theorem HeapRun.inv {ops : List StoreOp} (h : HeapRun B s ops) : ∃ l, RunInv s ops l := by
  induction h with
  | @init m e s h hready =>
    have hinv := HeapInv.started (B := B) (q := ⟨s, ∅⟩) ⟨⟨m, e, h⟩, hready, rfl⟩
    exact ⟨_, by rwa [ObjectStore.after_nil, objectsOf_empty], .empty _, ObjectStore.allLegal_nil⟩
  | kmalloc _ h1 h2 hrun hp ih =>
    obtain ⟨l, hl⟩ := ih
    exact hl.kmalloc h1 h2 hrun hp
  | refused _ h1 h2 hrun ih =>
    obtain ⟨l, hl⟩ := ih
    exact hl.refused h1 h2 hrun
  | kfree _ hp hrun ih =>
    obtain ⟨l, hl⟩ := ih
    exact hl.kfree hp hrun
  | write v _ hb ih =>
    obtain ⟨l, hl⟩ := ih
    exact ⟨l, hl.write v hb⟩
  | backing e _ ih =>
    obtain ⟨l, hl⟩ := ih
    exact ⟨l, hl.heap.backing e, hl.shown, hl.legal⟩

/-- **The heap keeps what it is given.** In every run from a successful `heap_init` the operations
of its users are those of an object store: each `kmalloc` makes a new object that shares no byte
with another. Memory shows the store, so that a byte written is read back until its block is freed
or the byte is written again; the objects are eight-byte aligned and lie in `[heapStart + 16, brk)`;
and the calls of `kmalloc` return, and those of `kfree` on an object return 1. -/
theorem heap_refines_store {ops : List StoreOp} (h : HeapRun B s ops) :
    ObjectStore.AllLegal ops ∧ (ObjectStore.after ops).Separate ∧
      (ObjectStore.after ops).ShownBy s.mem ∧
      (∀ pre p i v post, ops = pre ++ .write p i v :: post →
        (∀ o ∈ post, o ≠ .free p ∧ ∀ w, o ≠ .write p i w) → s.mem (p + i) = v) ∧
      (∀ p bytes, ObjectStore.after ops p = some bytes →
        8 ∣ p ∧ heapStart + headerSize ≤ p ∧ p + bytes.length ≤ s.brk) ∧
      (∀ n, 1 ≤ n → n ≤ heapMax → ∃ p t, run (heapAct B) (kmalloc n) s = some (p, t)) ∧
      ∀ p, ObjectStore.after ops p ≠ none → ∃ t, run (heapAct B) (kfree p) s = some (1, t) := by
  obtain ⟨l, hinv, hshown, hlegal⟩ := h.inv
  refine ⟨hlegal, .after hlegal, hshown, ?_, ?_, ?_, ?_⟩
  · rintro pre p i v post rfl hpost
    obtain ⟨bytes, hp, hi⟩ := hlegal.kept hpost
    obtain ⟨hlt, rfl⟩ := List.getElem?_eq_some_iff.1 hi
    exact hshown p bytes hp i hlt
  · intro p bytes hp
    obtain ⟨size, hle, hin⟩ := hinv.accounts.sized (p, bytes.length) ⟨bytes, hp, rfl⟩
    obtain ⟨hlo, hhi⟩ := Seg.inUse_bounds headerSize hin
    obtain ⟨hstart, hge, -, -⟩ := hinv.live_block (b := (p, bytes.length)) ⟨bytes, hp, rfl⟩
    have hal := Holds.aligned (by decide) hinv.tiled.sizes _ hstart
    have htiles : heapStart + Seg.span headerSize l = s.brk := hinv.tiled.tiles
    have hH := headerSize_eq
    simp only at hlo hhi hle hge hal
    refine ⟨?_, hlo, ?_⟩ <;> omega
  · intro n h1 h2
    obtain ⟨p, t, -, hrun, -⟩ := runs_kmalloc (B := B) hinv.tiled h1 (h2.trans_lt (by decide))
      (growthInWindow_of_le hinv.tiled h2)
    exact ⟨p, t, hrun.1⟩
  · intro p hp
    obtain ⟨bytes, hbytes⟩ := Option.ne_none_iff_exists'.1 hp
    obtain ⟨pre, x, post, rfl, hx, -, hb⟩ := hinv.exists_block (b := (p, bytes.length))
      ⟨bytes, hbytes, rfl⟩
    obtain ⟨-, t, hrun, -⟩ := runs_kfree (B := B) hinv.tiled hx
    rw [← hb] at hrun
    exact ⟨t, hrun.1⟩

/-- The owner of the block of eight bytes writes its third byte, and finds it there after a second
block has been taken. -/
theorem heap_refines_store_twoBlock : ∃ t, run (heapAct bumpBacking) (kmalloc 8)
    (oneBlockHeap.setMem (oneBlockHeap.mem.write8 (heapStart + 16 + 2) 0x5A)) =
      some (heapStart + 40, t) ∧ t.mem (heapStart + 16 + 2) = 0x5A := by
  have hready : freshHeap.ready = 1 := by decide +kernel
  have hone := HeapRun.kmalloc (.init run_freshHeap hready) (by decide) (by decide) run_oneBlockHeap
    (by decide)
  have hwritten := hone.write 0x5A (i := 2) ⟨_, Function.update_self .., by omega, by simp⟩
  set u := oneBlockHeap.setMem (oneBlockHeap.mem.write8 (heapStart + 16 + 2) 0x5A) with hu
  have hrun : run (heapAct bumpBacking) (kmalloc 8) u = some
    (heapStart + 40, after (heapAct bumpBacking) (kmalloc 8) u) :=
    run_eq_after _ (by rw [hu]; decide +kernel)
  refine ⟨_, hrun, ?_⟩
  obtain ⟨-, -, -, hkept, -⟩ :=
    heap_refines_store (hwritten.kmalloc (by decide) (by decide) hrun (by decide))
  refine hkept [.alloc (heapStart + 16) (oneBlockHeap.mem.bytes (heapStart + 16) 8)] _ _ _ _ rfl
    fun o ho => ?_
  rw [List.mem_singleton.1 ho]
  exact ⟨nofun, nofun⟩

end JarvisOS
