import JarvisOS.Foundations.ByteMemory
import Mathlib.Data.List.Induction
import Mathlib.Logic.Function.Basic

/-!
# Objects in memory

An object store assigns to some addresses an object, given by the list of its bytes. Its users
allocate objects, free them and write single bytes of theirs (`StoreOp`). A memory shows a store
when each object stands at its address (`ShownBy`): the rules below say what a memory has to keep,
at each operation, to go on showing the store. In a run of legal operations no two objects share a
byte (`Separate.after`).
-/

namespace Foundations

/-- The objects at the addresses where there is one. -/
abbrev ObjectStore := ℕ → Option (List UInt8)

/-- What the users of a store do. -/
inductive StoreOp
  /-- A new object at `p`. -/
  | alloc (p : ℕ) (bytes : List UInt8)
  | free (p : ℕ)
  /-- Write byte `i` of the object at `p`. -/
  | write (p i : ℕ) (v : UInt8)

/-- The `n` bytes at `a`. -/
def Mem.bytes (m : Mem) (a n : ℕ) : List UInt8 := (List.range n).map fun i => m (a + i)

@[simp] theorem Mem.length_bytes (m : Mem) (a n : ℕ) : (m.bytes a n).length = n := by
  simp [Mem.bytes]

@[simp] theorem Mem.getElem_bytes (m : Mem) (a n i : ℕ) (hi : i < (m.bytes a n).length) :
    (m.bytes a n)[i] = m (a + i) := by
  simp [Mem.bytes]

theorem Mem.write8_apply_of_ne (m : Mem) {a x : ℕ} (v : UInt8) (h : x ≠ a) : m.write8 a v x = m x :=
  if_neg h

namespace ObjectStore

variable {S : ObjectStore} {m m' : Mem} {p q a i : ℕ} {v : UInt8} {bytes : List UInt8} {o : StoreOp}

/-- No objects. -/
def empty : ObjectStore := fun _ => none

/-- `a` is the address of a byte of the object at `p`. -/
def Byte (S : ObjectStore) (p a : ℕ) : Prop := ∃ bytes, S p = some bytes ∧ p ≤ a ∧
    a < p + bytes.length

/-- No two objects share a byte. -/
def Separate (S : ObjectStore) : Prop := ∀ p q a, S.Byte p a → S.Byte q a → p = q

/-- The store after an operation. -/
def apply (S : ObjectStore) : StoreOp → ObjectStore
  | .alloc p bytes => Function.update S p (some bytes)
  | .free p => Function.update S p none
  | .write p i v => Function.update S p ((S p).map (·.set i v))

@[simp] theorem apply_alloc (S : ObjectStore) (p : ℕ) (bytes : List UInt8) :
    S.apply (.alloc p bytes) = Function.update S p (some bytes) := rfl

@[simp] theorem apply_free (S : ObjectStore) (p : ℕ) :
    S.apply (.free p) = Function.update S p none := rfl

@[simp] theorem apply_write (S : ObjectStore) (p i : ℕ) (v : UInt8) :
    S.apply (.write p i v) = Function.update S p ((S p).map (·.set i v)) := rfl

/-- The operations that a store allows: objects are made where there is none, and freed and written
where there is one. -/
def Legal (S : ObjectStore) : StoreOp → Prop
  | .alloc p bytes => S p = none ∧ ∀ a, p ≤ a → a < p + bytes.length → ∀ q, ¬ S.Byte q a
  | .free p => S p ≠ none
  | .write p i _ => S.Byte p (p + i)

/-- The store after some operations, from the empty one. -/
def after (ops : List StoreOp) : ObjectStore := ops.foldl apply empty

@[simp] theorem after_nil : after [] = empty := rfl

@[simp] theorem after_concat (ops : List StoreOp) (o : StoreOp) :
    after (ops ++ [o]) = (after ops).apply o := by
  simp [after]

/-- Every operation is legal when it is done. -/
def AllLegal (ops : List StoreOp) : Prop := ∀ pre o, pre ++ [o] <+: ops → (after pre).Legal o

theorem allLegal_nil : AllLegal [] := fun pre o h => by simp at h

theorem AllLegal.concat {ops : List StoreOp} (h : AllLegal ops) (ho : (after ops).Legal o) :
    AllLegal (ops ++ [o]) := by
  intro pre o' hpre
  rcases List.prefix_concat_iff.1 hpre with e | hpre
  · obtain ⟨rfl, rfl⟩ := List.append_inj' e rfl |>.imp_right fun e => List.singleton_inj.1 e
    exact ho
  · exact h pre o' hpre

/-! ## The bytes of the objects -/

theorem not_byte_empty : ¬ empty.Byte p a := fun ⟨_, h, _⟩ => nomatch h

theorem byte_alloc : (S.apply (.alloc p bytes)).Byte q a ↔
    (q = p ∧ p ≤ a ∧ a < p + bytes.length) ∨ (q ≠ p ∧ S.Byte q a) := by
  rw [Byte, Byte, apply_alloc]
  by_cases h : q = p
  · subst h
    simp
  · simp [h]

theorem byte_free : (S.apply (.free p)).Byte q a ↔ q ≠ p ∧ S.Byte q a := by
  rw [Byte, Byte, apply_free]
  by_cases h : q = p
  · subst h
    simp
  · simp [h]

/-- Writing changes no object's extent. -/
theorem byte_write : (S.apply (.write p i v)).Byte q a ↔ S.Byte q a := by
  rw [Byte, Byte, apply_write]
  by_cases h : q = p
  · subst h
    simp
  · simp [h]

theorem separate_empty : empty.Separate := fun _ _ _ h => absurd h not_byte_empty

/-- **Legal operations keep the objects apart.** -/
theorem Separate.apply (h : S.Separate) (ho : S.Legal o) : (S.apply o).Separate := by
  intro q r a hq hr
  cases o with
  | alloc p bytes =>
    rcases byte_alloc.1 hq with ⟨rfl, h1, h2⟩ | ⟨-, hq'⟩
    · rcases byte_alloc.1 hr with ⟨rfl, -, -⟩ | ⟨-, hr'⟩
      · rfl
      · exact absurd hr' (ho.2 a h1 h2 r)
    · rcases byte_alloc.1 hr with ⟨rfl, h1, h2⟩ | ⟨-, hr'⟩
      · exact absurd hq' (ho.2 a h1 h2 q)
      · exact h q r a hq' hr'
  | free p => exact h q r a (byte_free.1 hq).2 (byte_free.1 hr).2
  | write p i v => exact h q r a (byte_write.1 hq) (byte_write.1 hr)

/-- **In a run of legal operations no two objects share a byte.** -/
theorem Separate.after {ops : List StoreOp} (h : AllLegal ops) : (after ops).Separate := by
  induction ops using List.reverseRecOn with
  | nil => exact separate_empty
  | append_singleton ops o ih =>
    rw [after_concat]
    exact (ih fun pre o' hpre => h pre o' (hpre.trans (List.prefix_append _ _))).apply
      (h ops o List.prefix_rfl)

/-- **A byte written stays** until its object is freed or the byte is written again. -/
theorem AllLegal.kept {pre post : List StoreOp} (h : AllLegal (pre ++ .write p i v :: post))
    (hpost : ∀ o ∈ post, o ≠ .free p ∧ ∀ w, o ≠ .write p i w) :
    ∃ bytes, after (pre ++ .write p i v :: post) p = some bytes ∧ bytes[i]? = some v := by
  induction post using List.reverseRecOn with
  | nil =>
    obtain ⟨bytes, hp, -, hi⟩ := h pre _ List.prefix_rfl
    refine ⟨bytes.set i v, ?_, List.getElem?_set_self (by omega)⟩
    rw [after_concat, apply_write, Function.update_self, hp, Option.map_some]
  | append_singleton post o ih =>
    have e : pre ++ StoreOp.write p i v :: (post ++ [o]) = (pre ++ .write p i v :: post) ++
      [o] := by simp
    rw [e] at h ⊢
    obtain ⟨bytes, hp, hi⟩ :=
      ih (fun pre' o' hpre => h pre' o' (hpre.trans (List.prefix_append _ _)))
      fun o' ho' => hpost o' (List.mem_append_left _ ho')
    obtain ⟨hfree, hwrite⟩ := hpost o (List.mem_append_right _ List.mem_cons_self)
    have hlegal := h _ o List.prefix_rfl
    rw [after_concat]
    cases o with
    | alloc q new =>
      have hne : p ≠ q := fun e => by rw [Legal, ← e, hp] at hlegal; exact nomatch hlegal.1
      exact ⟨bytes, by rw [apply_alloc, Function.update_of_ne hne, hp], hi⟩
    | free q =>
      have hne : p ≠ q := fun e => hfree (e ▸ rfl)
      exact ⟨bytes, by rw [apply_free, Function.update_of_ne hne, hp], hi⟩
    | write q j w =>
      by_cases hpq : p = q
      · subst hpq
        have hne : j ≠ i := fun e => hwrite w (e ▸ rfl)
        refine ⟨bytes.set j w, ?_, (List.getElem?_set_ne hne).trans hi⟩
        rw [apply_write, Function.update_self, hp, Option.map_some]
      · exact ⟨bytes, by rw [apply_write, Function.update_of_ne hpq, hp], hi⟩

/-! ## Memories that show a store -/

/-- Each object stands in memory, at its address. -/
def ShownBy (S : ObjectStore) (m : Mem) : Prop :=
  ∀ p bytes, S p = some bytes → ∀ i (hi : i < bytes.length), m (p + i) = bytes[i]

namespace ShownBy

theorem empty (m : Mem) : ObjectStore.empty.ShownBy m := fun _ _ h => nomatch h

/-- A memory with the same bytes of objects. -/
theorem congr (h : S.ShownBy m) (hm : ∀ q a, S.Byte q a → m' a = m a) : S.ShownBy m' :=
  fun p bytes hp i hi =>
    (hm p (p + i) ⟨bytes, hp, Nat.le_add_right _ _, Nat.add_lt_add_left hi p⟩).trans
      (h p bytes hp i hi)

/-- A new object, of the bytes that stand there. -/
theorem alloc (h : S.ShownBy m) (p n : ℕ) : (S.apply (.alloc p (m.bytes p n))).ShownBy m := by
  intro q bytes hq i hi
  rw [apply_alloc] at hq
  by_cases hqp : q = p
  · subst hqp
    obtain rfl : m.bytes q n = bytes := by simpa using hq
    rw [Mem.getElem_bytes]
  · rw [Function.update_of_ne hqp] at hq
    exact h q bytes hq i hi

/-- One object less. -/
theorem free (h : S.ShownBy m) (p : ℕ) : (S.apply (.free p)).ShownBy m := by
  intro q bytes hq
  rw [apply_free] at hq
  by_cases hqp : q = p
  · subst hqp
    simp at hq
  · rw [Function.update_of_ne hqp] at hq
    exact h q bytes hq

/-- **A byte written in memory** is written in its object, and in no other. -/
theorem write (h : S.ShownBy m) (hS : S.Separate) (hb : S.Byte p (p + i)) :
    (S.apply (.write p i v)).ShownBy (m.write8 (p + i) v) := by
  intro q bytes hq j hj
  rw [apply_write] at hq
  by_cases hqp : q = p
  · subst hqp
    obtain ⟨old, hold, -, hi⟩ := hb
    obtain rfl : old.set i v = bytes := by simpa [hold] using hq
    rw [List.length_set] at hj
    rw [List.getElem_set]
    split_ifs with hij
    · subst hij
      exact if_pos rfl
    · rw [Mem.write8_apply_of_ne _ _ (by omega), h q old hold j hj]
  · rw [Function.update_of_ne hqp] at hq
    have hj' : S.Byte q (q + j) := ⟨bytes, hq, Nat.le_add_right _ _, Nat.add_lt_add_left hj q⟩
    have hne : q + j ≠ p + i := fun e => hqp (hS q p (q + j) hj' (by rwa [e]))
    rw [Mem.write8_apply_of_ne _ _ hne, h q bytes hq j hj]

end ShownBy

end ObjectStore

end Foundations
