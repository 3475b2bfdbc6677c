import JarvisOS.Foundations.WhileLoop
import JarvisOS.Physical.MemoryMap

/-!
# The walk over the memory map

The loop of `memory_init` follows the sizes that stand in the map, in 32-bit arithmetic, and looks
only at where an entry begins. `memoryInit_inside_iff` says of which maps, whatever their bytes are,
the walk ends and reads nothing outside the map: those in which every entry that is reached lies in
the map with its 24 bytes and none leads back to itself. Where no step wraps around, these are the
maps whose sizes lead from entry to entry up to the end (`chained_iff_sizesLead`); well-formed maps
are such maps (`MmapEntry.Laid.chained`).
-/

namespace JarvisOS

open Foundations WhileLoop

/-! ## What the walk reads -/

/-- The step of the loop. -/
def nextEntry (m : Mem) (entry : ℕ) : ℕ := u32 (u32 (entry + m.read32 entry) + 4)

/-- The fields of the entry that a round reads, `size` for the step: where they begin and how long
they are. -/
def entryFields (entry : ℕ) : List (ℕ × ℕ) :=
  [(u32 (entry + 4), 8), (u32 (entry + 12), 8), (u32 (entry + 20), 4), (entry, 4)]

/-- The fields that `fuel` rounds of the loop read. -/
def walkReads (m : Mem) (mapEnd : ℕ) : ℕ → ℕ → List (ℕ × ℕ)
  | 0, _ => []
  | fuel + 1, entry =>
    if entry < mapEnd then entryFields entry ++ walkReads m mapEnd fuel (nextEntry m entry) else []

/-- The fields that `memory_init` reads in `fuel` rounds. -/
def memoryInitReads (fuel : ℕ) (m : Mem) (mbi : MultibootInfo) : List (ℕ × ℕ) :=
  if mbi.flags &&& (1#32 <<< 6) = 0#32 then []
  else walkReads m (u32 (mbi.mmapAddr.toNat + mbi.mmapLength.toNat)) fuel mbi.mmapAddr.toNat

/-- The loop, begun at the first address, comes to an entry. -/
abbrev Reaches (m : Mem) (mapEnd : ℕ) : ℕ → ℕ → Prop := Enters (· < mapEnd) (nextEntry m)

/-- A field, given by its address and length, lies in `[lo, hi)`. -/
def Inside (lo hi : ℕ) (field : ℕ × ℕ) : Prop := lo ≤ field.1 ∧ field.1 + field.2 ≤ hi

/-- The sizes lead from `lo` to entries that lie in `[lo, hi)`, and from none back to itself. -/
structure Chained (m : Mem) (lo hi : ℕ) : Prop where
  whole : ∀ entry, Reaches m hi lo entry → lo ≤ entry ∧ entry + 24 ≤ hi
  acyclic : ∀ entry, Reaches m hi lo entry → ¬ Reaches m hi (nextEntry m entry) entry

variable {m m' : Mem} {lo hi stop p fuel : ℕ} {s : MemoryInfo}

theorem nextEntry_of_lt (h : p + m.read32 p + 4 < 2 ^ 32) : nextEntry m p = p + m.read32 p + 4 := by
  rw [nextEntry, u32_of_lt (show p + m.read32 p < 2 ^ 32 by omega), u32_of_lt h]

/-- Bytes that are not read make no difference. -/
theorem MemoryInfo.walk_congr (h : ∀ field ∈ walkReads m stop fuel p, ∀ x, field.1 ≤ x →
    x < field.1 + field.2 → m' x = m x) : walk m' stop fuel p s = walk m stop fuel p s := by
  induction fuel generalizing p s with
  | zero => rfl
  | succ fuel ih =>
    simp only [walk]
    split_ifs with hp
    · rw [walkReads, if_pos hp] at h
      have hfield {a n : ℕ} (ha : (a, n) ∈ entryFields p) : ∀ x, a ≤ x → x < a + n → m' x = m x :=
        h (a, n) (List.mem_append_left _ ha)
      have hsize : m'.read32 p = m.read32 p := Mem.read32_congr (hfield (by simp [entryFields]))
      have htype : m'.read32 (u32 (p + 20)) = m.read32 (u32 (p + 20)) :=
        Mem.read32_congr (hfield (by simp [entryFields]))
      have haddr : m'.read64 (u32 (p + 4)) = m.read64 (u32 (p + 4)) :=
        Mem.read64_congr (hfield (by simp [entryFields]))
      have hlen : m'.read64 (u32 (p + 12)) = m.read64 (u32 (p + 12)) :=
        Mem.read64_congr (hfield (by simp [entryFields]))
      rw [hsize, htype, haddr, hlen]
      apply ih
      intro field hfield
      exact h field (List.mem_append_right _ hfield)
    · rfl

/-- The walk reads the fields of the entries that the loop enters. -/
theorem exists_mem_walkReads_iff {field : ℕ × ℕ} : (∃ fuel, field ∈ walkReads m stop fuel p) ↔
    ∃ entry, Reaches m stop p entry ∧ field ∈ entryFields entry := by
  constructor
  · rintro ⟨fuel, hmem⟩
    induction fuel generalizing p with
    | zero => simp [walkReads] at hmem
    | succ fuel ih =>
      rw [walkReads] at hmem
      split_ifs at hmem with hp
      · rcases List.mem_append.1 hmem with hmem | hmem
        · exact ⟨p, .here hp, hmem⟩
        · obtain ⟨entry, henters, hentry⟩ := ih hmem
          exact ⟨entry, .there hp henters, hentry⟩
      · simp at hmem
  · rintro ⟨entry, henters, hentry⟩
    induction henters with
    | here hp =>
      refine ⟨1, ?_⟩
      rw [walkReads, if_pos hp]
      exact List.mem_append_left _ hentry
    | there hp _ ih =>
      obtain ⟨fuel, hmem⟩ := ih hentry
      refine ⟨fuel + 1, ?_⟩
      rw [walkReads, if_pos hp]
      exact List.mem_append_right _ hmem

/-- A round of the loop. -/
theorem MemoryInfo.walk_of_lt (s : MemoryInfo) (hp : p < stop) : ∃ t, ∀ fuel,
    walk m stop (fuel + 1) p s = walk m stop fuel (nextEntry m p) t := by
  refine ⟨s.add (BitVec.ofNat 32 (m.read64 (u32 (p + 4))))
    (BitVec.ofNat 32 (m.read64 (u32 (p + 12))))
    (BitVec.ofNat 32 (m.read32 (u32 (p + 20)))), fun fuel => ?_⟩
  rw [walk, if_pos hp]
  rfl

theorem MemoryInfo.walk_of_not_lt (s : MemoryInfo) (hp : ¬ p < stop) :
    walk m stop (fuel + 1) p s = some s := by
  rw [walk, if_neg hp]

/-- The walk returns if the loop ends. -/
theorem MemoryInfo.exists_walk_isSome_iff (s : MemoryInfo) :
    (∃ fuel, (walk m stop fuel p s).isSome) ↔ Ends (· < stop) (nextEntry m) p := by
  constructor
  · rintro ⟨fuel, hsome⟩
    induction fuel generalizing p s with
    | zero => simp [walk] at hsome
    | succ fuel ih =>
      by_cases hp : p < stop
      · obtain ⟨t, ht⟩ := walk_of_lt s hp
        rw [ht] at hsome
        refine (ends_next_iff ?_).1 (ih t hsome)
        exact hp
      · exact ends_of_not hp
  · rintro ⟨n, hn⟩
    induction n generalizing p s with
    | zero =>
      have hp : ¬ p < stop := hn
      exact ⟨1, by rw [walk_of_not_lt s hp, Option.isSome_some]⟩
    | succ n ih =>
      by_cases hp : p < stop
      · obtain ⟨t, ht⟩ := walk_of_lt s hp
        obtain ⟨fuel, hsome⟩ := ih t hn
        exact ⟨fuel + 1, by rwa [ht]⟩
      · exact ⟨1, by rw [walk_of_not_lt s hp, Option.isSome_some]⟩

/-- The fields of an entry lie in the map if its 24 bytes do. -/
theorem entryFields_inside_iff (hhi : hi < 2 ^ 32) :
    (∀ field ∈ entryFields p, Inside lo hi field) ↔ lo ≤ p ∧ p + 24 ≤ hi := by
  simp only [entryFields, List.forall_mem_cons, Inside, u32]
  constructor
  · rintro ⟨haddr, hlen, htype, hsize, -⟩
    omega
  · intro h
    refine ⟨?_, ?_, ?_, ?_, by simp⟩ <;> omega

/-- **The loop ends and reads inside the map exactly on chained maps.** -/
theorem MemoryInfo.walk_inside_iff (hhi : hi < 2 ^ 32) :
    ((∃ fuel, (walk m hi fuel lo .boot).isSome) ∧
        ∀ fuel, ∀ field ∈ walkReads m hi fuel lo, Inside lo hi field) ↔ Chained m lo hi := by
  have hfin : {entry | Reaches m hi lo entry}.Finite :=
    (Set.finite_lt_nat hi).subset fun entry h => h.cond_end
  rw [exists_walk_isSome_iff, ends_iff hfin]
  constructor
  · rintro ⟨hends, hreads⟩
    refine ⟨?_, hends⟩
    intro entry henters
    apply (entryFields_inside_iff hhi).1
    intro field hfield
    obtain ⟨fuel, hmem⟩ := exists_mem_walkReads_iff.2 ⟨entry, henters, hfield⟩
    exact hreads fuel field hmem
  · intro h
    refine ⟨h.acyclic, ?_⟩
    intro fuel field hmem
    obtain ⟨entry, henters, hfield⟩ := exists_mem_walkReads_iff.1 ⟨fuel, hmem⟩
    exact (entryFields_inside_iff hhi).2 (h.whole entry henters) field hfield

/-- **The walk over the memory map** ends and reads only inside the map if and only if there is none
to walk over or it is chained. -/
theorem memoryInit_inside_iff (m : Mem) (mbi : MultibootInfo)
    (hsum : mbi.mmapAddr.toNat + mbi.mmapLength.toNat < 2 ^ 32) :
    ((∃ fuel, (memoryInit fuel m mbi).isSome) ∧ ∀ fuel, ∀ field ∈ memoryInitReads fuel m mbi,
      Inside mbi.mmapAddr.toNat (mbi.mmapAddr.toNat + mbi.mmapLength.toNat) field) ↔
    mbi.flags &&& (1#32 <<< 6) = 0#32 ∨
      Chained m mbi.mmapAddr.toNat (mbi.mmapAddr.toNat + mbi.mmapLength.toNat) := by
  unfold memoryInit memoryInitReads
  split_ifs with hflag
  · apply iff_of_true _ (Or.inl hflag)
    exact ⟨⟨0, rfl⟩, fun _ _ hmem => absurd hmem List.not_mem_nil⟩
  · rw [or_iff_right hflag]
    simp only [u32_of_lt hsum, Option.isSome_map, MemoryInfo.walk_inside_iff hsum]

/-! ## By the sizes -/

/-- The sizes lead from entry to entry up to `hi`: every entry has its 24 bytes below `hi`, the next
one begins where its size says, without wrapping around, and the last one leads to `hi` or
beyond. -/
inductive SizesLead (m : Mem) (hi : ℕ) : ℕ → Prop
  | done {p : ℕ} (h : hi ≤ p) : SizesLead m hi p
  | entry {p : ℕ} (hfit : p + 24 ≤ hi) (hwrap : p + m.read32 p + 4 < 2 ^ 32)
      (hrest : SizesLead m hi (p + m.read32 p + 4)) : SizesLead m hi p

/-- The walk goes upwards where the sizes lead. -/
theorem SizesLead.enters (h : SizesLead m hi lo) {entry : ℕ} (henters : Reaches m hi lo entry) :
    lo ≤ entry ∧ entry + 24 ≤ hi ∧ entry < nextEntry m entry := by
  induction h with
  | done h => exact absurd henters.cond_start (not_lt.2 h)
  | entry hfit hwrap _ ih =>
    rw [← nextEntry_of_lt hwrap] at ih
    cases henters with
    | here => exact ⟨le_rfl, hfit, by rw [nextEntry_of_lt hwrap]; omega⟩
    | there _ hrest =>
      obtain ⟨hlo, hrest⟩ := ih hrest
      rw [nextEntry_of_lt hwrap] at hlo
      exact ⟨by omega, hrest⟩

/-- **Where no step wraps around**, a map is chained if and only if the sizes lead from entry to
entry up to its end. -/
theorem chained_iff_sizesLead
    (hwrap : ∀ entry, Reaches m hi lo entry → entry + m.read32 entry + 4 < 2 ^ 32) :
    Chained m lo hi ↔ SizesLead m hi lo := by
  constructor
  · intro h
    have hlead : ∀ n p, (p < hi → Reaches m hi lo p) → hi - p ≤ n → SizesLead m hi p := by
      intro n
      induction n with
      | zero => exact fun p _ hn => .done (Nat.sub_eq_zero_iff_le.1 (Nat.le_zero.1 hn))
      | succ n ih =>
        intro p hp hn
        by_cases hlt : p < hi
        · have hreach := hp hlt
          have hstep := nextEntry_of_lt (hwrap p hreach)
          refine .entry (h.whole p hreach).2 (hwrap p hreach) (ih _ (fun hnext => ?_) (by omega))
          rw [← hstep] at hnext ⊢
          exact hreach.trans (.here hnext)
        · exact .done (not_lt.1 hlt)
    exact hlead hi lo (fun hlt => .here hlt) (Nat.sub_le _ _)
  · intro h
    exact ⟨fun entry he => ⟨(h.enters he).1, (h.enters he).2.1⟩,
      fun entry he => acyclic_of_lt (fun c hc => (h.enters hc).2.2) he⟩

/-! ## Well-formed maps -/

/-- In a well-formed map the sizes lead from entry to entry. -/
theorem MmapEntry.Laid.sizesLead {es : List MmapEntry} (hstop : stop < 2 ^ 32)
    (h : Laid m stop p es) : SizesLead m stop p := by
  induction es generalizing p with
  | nil => exact .done h.ge
  | cons e es ih =>
    obtain ⟨hsize, -, -, -, hrest⟩ := h
    have hle := hrest.start_le
    have hge := e.size_ge
    rw [← hsize] at hrest hle hge
    exact .entry (by omega) (by omega) (ih hrest)

/-- **Well-formed maps are chained.** -/
theorem MmapEntry.Laid.chained {es : List MmapEntry} (hstop : stop < 2 ^ 32)
    (h : Laid m stop p es) :
    Chained m p stop where
  whole _ henters :=
    ⟨((h.sizesLead hstop).enters henters).1, ((h.sizesLead hstop).enters henters).2.1⟩
  acyclic _ henters := acyclic_of_lt (fun _ hc => ((h.sizesLead hstop).enters hc).2.2) henters

theorem memoryInit_inside_high :
    (∃ fuel, (memoryInit fuel highMap ⟨0x40#32, 48#32, 0x9000#32⟩).isSome) ∧
    ∀ fuel, ∀ field ∈ memoryInitReads fuel highMap ⟨0x40#32, 48#32, 0x9000#32⟩,
      Inside 0x9000 (0x9000 + 48) field := by
  apply (memoryInit_inside_iff highMap ⟨0x40#32, 48#32, 0x9000#32⟩ (by decide)).2
  right
  exact highMap_hasMap.laid.chained (by decide)

/-! ## Maps that are not -/

/-- From an entry that leads to itself the walk does not return. -/
theorem MemoryInfo.walk_of_fixed (hp : p < stop) (hfix : nextEntry m p = p) :
    walk m stop fuel p s = none := by
  induction fuel generalizing s with
  | zero => rfl
  | succ fuel ih =>
    obtain ⟨t, ht⟩ := walk_of_lt s hp
    rw [ht, hfix, ih]

/-- An entry with the size `2^32 - 4`. -/
def stuckMap : Mem := Mem.write32 (fun _ => 0) 0x9000 0xfffffffc

/-- On the one map the walk goes round at its first entry. On the other, which is cut 4 bytes into
its second entry, it reads the address of that entry behind the end. -/
theorem memoryInit_not_inside :
    (∀ fuel, memoryInit fuel stuckMap ⟨0x40#32, 24#32, 0x9000#32⟩ = none) ∧
    (0x901c, 8) ∈ memoryInitReads 2 highMap ⟨0x40#32, 28#32, 0x9000#32⟩ ∧
    ¬ Inside 0x9000 (0x9000 + 28) (0x901c, 8) := by
  refine ⟨?_, ?_, ?_⟩
  · intro fuel
    have hfix : nextEntry stuckMap 0x9000 = 0x9000 := by decide +kernel
    have hwalk : MemoryInfo.walk stuckMap (u32 (0x9000 + 24)) fuel 0x9000 .boot = none :=
      MemoryInfo.walk_of_fixed (by decide) hfix
    exact congrArg (Option.map _) hwalk
  · decide +kernel
  · simp [Inside]

end JarvisOS
