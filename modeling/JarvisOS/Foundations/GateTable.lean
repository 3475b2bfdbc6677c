import JarvisOS.Foundations.Interrupts

/-!
# The table of interrupt gates

Runs of bytes in memory, and the table that the processor looks an interrupt vector up in. A gate is
eight bytes: the low half of its offset, its selector, a byte of zeros, the type and the high half
of the offset. `gateAt_of_bytes` reads a gate from its bytes, and `SegMachine.deliver` takes an
interrupt through the table.
-/

namespace Foundations

/-! ## Runs of bytes -/

/-- The low `n` bytes of a number, low byte first. -/
def leBytes (n v : ℕ) : List UInt8 := (List.range n).map fun i => UInt8.ofNat (v / 2 ^ (8 * i))

@[simp] theorem length_leBytes (n v : ℕ) : (leBytes n v).length = n := by simp [leBytes]

namespace Mem

/-- Store bytes from `a` on. -/
def writeBytes (m : Mem) (a : ℕ) (bs : List UInt8) : Mem := fun x =>
  if a ≤ x then (bs[x - a]?).getD (m x) else m x

/-- Store the 16-bit word `v` at `a`. -/
def write16 (m : Mem) (a v : ℕ) : Mem := m.writeBytes a (leBytes 2 v)

/-- The 16-bit word at `a`. -/
def read16 (m : Mem) (a : ℕ) : ℕ := (m a).toNat + 2 ^ 8 * (m (a + 1)).toNat

/-- The bytes stand in memory from `a` on. -/
def Bytes (m : Mem) (a : ℕ) (bs : List UInt8) : Prop := ∀ i (h : i < bs.length), m (a + i) = bs[i]

variable {m : Mem} {a b x v : ℕ} {bs cs : List UInt8}

theorem writeBytes_apply_of_disjoint (h : x < a ∨ a + bs.length ≤ x) :
    m.writeBytes a bs x = m x := by
  unfold writeBytes
  split_ifs with hle
  · rw [List.getElem?_eq_none (by omega)]
    rfl
  · rfl

theorem writeBytes_apply {i : ℕ} (hi : i < bs.length) : m.writeBytes a bs (a + i) = bs[i] := by
  unfold writeBytes
  rw [if_pos (Nat.le_add_right _ _), Nat.add_sub_cancel_left, List.getElem?_eq_getElem hi]
  rfl

theorem bytes_writeBytes : (m.writeBytes a bs).Bytes a bs := fun _ hi => writeBytes_apply hi

/-- Bytes stored next to each other. -/
theorem writeBytes_writeBytes (h : b = a + bs.length) :
    (m.writeBytes a bs).writeBytes b cs = m.writeBytes a (bs ++ cs) := by
  subst h
  funext x
  unfold writeBytes
  by_cases hle : a ≤ x
  · rw [if_pos hle, if_pos hle]
    by_cases hb : a + bs.length ≤ x
    · rw [if_pos hb, List.getElem?_append_right (by omega),
        List.getElem?_eq_none (show bs.length ≤ x - a by omega),
        show x - (a + bs.length) = x - a - bs.length by omega]
      rfl
    · rw [if_neg hb, List.getElem?_append_left (by omega)]
  · rw [if_neg hle, if_neg hle, if_neg (by omega)]

/-- Stores to places apart. -/
theorem writeBytes_comm (h : a + bs.length ≤ b ∨ b + cs.length ≤ a) :
    (m.writeBytes a bs).writeBytes b cs = (m.writeBytes b cs).writeBytes a bs := by
  funext x
  by_cases ha : a ≤ x ∧ x < a + bs.length
  · obtain ⟨i, rfl⟩ := Nat.exists_eq_add_of_le ha.1
    rw [writeBytes_apply_of_disjoint (by omega), writeBytes_apply (by omega),
      writeBytes_apply (by omega)]
  · have hx : x < a ∨ a + bs.length ≤ x := by omega
    rw [writeBytes_apply_of_disjoint (m := m.writeBytes b cs) hx]
    by_cases hb : b ≤ x ∧ x < b + cs.length
    · obtain ⟨i, rfl⟩ := Nat.exists_eq_add_of_le hb.1
      rw [writeBytes_apply (by omega), writeBytes_apply (by omega)]
    · have hx' : x < b ∨ b + cs.length ≤ x := by omega
      exact (writeBytes_apply_of_disjoint hx').trans
        ((writeBytes_apply_of_disjoint hx).trans (writeBytes_apply_of_disjoint hx').symm)

theorem write8_eq_writeBytes (m : Mem) (a : ℕ) (v : UInt8) : m.write8 a v = m.writeBytes a [v] := by
  funext x
  by_cases hx : x = a
  · subst hx
    simp [write8, writeBytes]
  · rw [writeBytes_apply_of_disjoint (by simp only [List.length_singleton]; omega)]
    exact if_neg hx

theorem Bytes.congr {m' : Mem} (h : m.Bytes a bs)
    (hm : ∀ x, a ≤ x → x < a + bs.length → m' x = m x) :
    m'.Bytes a bs := fun i hi => (hm _ (by omega) (by omega)).trans (h i hi)

theorem read16_of_bytes (h : m.Bytes a (leBytes 2 v)) : m.read16 a = v % 2 ^ 16 := by
  have h0 := h 0 (by simp)
  have h1 := h 1 (by simp)
  simp [leBytes] at h0 h1
  unfold read16
  rw [h0, h1, UInt8.toNat_ofNat', UInt8.toNat_ofNat']
  omega

end Mem

/-! ## Gates -/

/-- An interrupt gate. -/
structure Gate where
  offset : Word
  selector : Selector

/-- The bytes of a gate. -/
def gateBytes (offset selector flags : ℕ) : List UInt8 :=
  leBytes 2 offset ++ leBytes 2 selector ++ [0] ++ [.ofNat flags] ++ leBytes 2 (offset / 2 ^ 16)

/-- The gate at `a`, if there is one that is present, of 32 bits and for interrupts. -/
def gateAt (m : Mem) (a : ℕ) : Option Gate :=
  let low := m.read32 a
  let high := m.read32 (a + 4)
  if high / 2 ^ 15 % 2 = 1 ∧ high / 2 ^ 8 % 2 ^ 5 = 0xE then
    some ⟨BitVec.ofNat 32 (low % 2 ^ 16 + high / 2 ^ 16 * 2 ^ 16), BitVec.ofNat 16 (low / 2 ^ 16)⟩
  else none

/-- The register that holds the limit and the address of the table. -/
structure TableRegister where
  limit : ℕ
  base : ℕ

/-- `lidt`. -/
def loadTable (m : Mem) (a : ℕ) : TableRegister := ⟨m.read16 a, m.read32 (a + 2)⟩

/-- The processor takes an interrupt through the table, if the vector has a gate. -/
def SegMachine.deliver (t : TableRegister) (vector : ℕ) (error : Option Word) (m : SegMachine) :
    Option SegMachine :=
  if 8 * vector + 7 ≤ t.limit then
    (gateAt m.mem (t.base + 8 * vector)).map fun g => m.interrupt g.selector g.offset error
  else none

/-- **A gate is read from its bytes.** -/
theorem gateAt_of_bytes {m : Mem} {a offset selector flags : ℕ}
    (h : m.Bytes a (gateBytes offset selector flags)) :
    gateAt m a = if flags / 2 ^ 7 % 2 = 1 ∧ flags % 2 ^ 5 = 0xE then
      some ⟨BitVec.ofNat 32 offset, BitVec.ofNat 16 selector⟩ else none := by
  have hbyte : ∀ i b, (gateBytes offset selector flags)[i]? = some (.ofNat b) →
    (m (a + i)).toNat = b % 2 ^ 8 :=
    fun i b hb => by
      obtain ⟨hi, hb⟩ := List.getElem?_eq_some_iff.1 hb
      rw [h i hi, hb, UInt8.toNat_ofNat']
  have h0 := hbyte 0 offset (by simp [gateBytes, leBytes])
  have h1 := hbyte 1 (offset / 2 ^ 8) rfl
  have h2 := hbyte 2 selector (by simp [gateBytes, leBytes])
  have h3 := hbyte 3 (selector / 2 ^ 8) rfl
  have h4 := hbyte 4 0 rfl
  have h5 := hbyte 5 flags rfl
  have h6 := hbyte 6 (offset / 2 ^ 16) (by simp [gateBytes, leBytes])
  have h7 := hbyte 7 (offset / 2 ^ 16 / 2 ^ 8) rfl
  have hlow : m.read32 a = offset % 2 ^ 16 + 2 ^ 16 * (selector % 2 ^ 16) := by
    unfold Mem.read32
    simp only [Nat.add_zero] at h0
    omega
  have hhigh : m.read32 (a + 4) = 2 ^ 8 * (flags % 2 ^ 8) + 2 ^ 16 *
    (offset / 2 ^ 16 % 2 ^ 16) := by
    unfold Mem.read32
    simp only [Nat.add_assoc, Nat.reduceAdd]
    omega
  unfold gateAt
  simp only [hlow, hhigh]
  have hpresent : (2 ^ 8 * (flags % 2 ^ 8) + 2 ^ 16 * (offset / 2 ^ 16 % 2 ^ 16)) / 2 ^ 15 % 2 =
    flags / 2 ^ 7 % 2 := by
    omega
  have htype : (2 ^ 8 * (flags % 2 ^ 8) + 2 ^ 16 * (offset / 2 ^ 16 % 2 ^ 16)) / 2 ^ 8 % 2 ^ 5 =
    flags % 2 ^ 5 := by
    omega
  have hoffset : BitVec.ofNat 32 ((offset % 2 ^ 16 + 2 ^ 16 * (selector % 2 ^ 16)) % 2 ^ 16 +
      (2 ^ 8 * (flags % 2 ^ 8) + 2 ^ 16 * (offset / 2 ^ 16 % 2 ^ 16)) / 2 ^ 16 * 2 ^ 16) =
        BitVec.ofNat 32 offset := by
    refine BitVec.eq_of_toNat_eq ?_
    rw [BitVec.toNat_ofNat, BitVec.toNat_ofNat]
    omega
  have hselector : BitVec.ofNat 16 ((offset % 2 ^ 16 + 2 ^ 16 * (selector % 2 ^ 16)) / 2 ^ 16) =
      BitVec.ofNat 16 selector := by
    refine BitVec.eq_of_toNat_eq ?_
    rw [BitVec.toNat_ofNat, BitVec.toNat_ofNat]
    omega
  rw [hpresent, htype, hoffset, hselector]

end Foundations
