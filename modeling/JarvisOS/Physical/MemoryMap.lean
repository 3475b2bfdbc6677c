import JarvisOS.Foundations.ByteMemory
import JarvisOS.Physical.Paging
import JarvisOS.Physical.WholeFrames

/-!
# The memory map of the boot loader

`memory_init` walks the Multiboot memory map and cuts every address and length to 32 bits. Entries
that begin below 4 GB are recorded truthfully, whatever their length. An entry above 4 GB is
recorded at its address modulo `2^32` (`MmapEntry.region`), so what the kernel takes for usable
memory is usable exactly when these shadows fall on usable memory anyway: `memoryInit_truthful_iff`.
-/

namespace JarvisOS

open Foundations

/-! ## The walk over the map -/

/-- The fields of `multiboot_info_t` that describe the memory map. -/
structure MultibootInfo where
  flags : BitVec 32
  mmapLength : BitVec 32
  mmapAddr : BitVec 32

/-- `MAX_REGIONS`. -/
abbrev maxRegions : ℕ := 32

/-- The variables of `memory.c`; `region_count` is the length of `regions`. -/
structure MemoryInfo where
  totalKb : BitVec 32
  usableKb : BitVec 32
  highest : BitVec 32
  regions : List Region

namespace MemoryInfo

/-- The variables before `memory_init`. -/
def boot : MemoryInfo := ⟨0#32, 0#32, 0#32, []⟩

/-- The body of the loop, for the base, the length and the type read from an entry. -/
def add (s : MemoryInfo) (base len type : BitVec 32) : MemoryInfo :=
  let s := if s.regions.length < maxRegions then
    { s with regions := s.regions ++ [⟨base, len, type⟩] } else s
  let s := { s with totalKb := s.totalKb + len / 1024#32 }
  if type = 1#32 then
    let s := { s with usableKb := s.usableKb + len / 1024#32 }
    if base + len > s.highest then { s with highest := base + len } else s
  else s

/-- The loop of `memory_init` at `entry`; `none` when it takes more than `fuel` rounds. -/
def walk (m : Mem) (mapEnd : ℕ) : ℕ → ℕ → MemoryInfo → Option MemoryInfo
  | 0, _, _ => none
  | fuel + 1, entry, s =>
    if entry < mapEnd then
      let base := BitVec.ofNat 32 (m.read64 (u32 (entry + 4)))
      let len := BitVec.ofNat 32 (m.read64 (u32 (entry + 12)))
      let type := BitVec.ofNat 32 (m.read32 (u32 (entry + 20)))
      walk m mapEnd fuel (u32 (u32 (entry + m.read32 entry) + 4)) (s.add base len type)
    else some s

/-- What the allocator reads of the variables. -/
def memMap (s : MemoryInfo) : MemMap := ⟨s.regions, s.highest⟩

end MemoryInfo

/-- `memory_init`, with what it prints. -/
def memoryInit (fuel : ℕ) (m : Mem) (mbi : MultibootInfo) : Option (List Output × MemoryInfo) :=
  if mbi.flags &&& (1#32 <<< 6) = 0#32 then
    some ([.str "FATAL: GRUB provided no memory map.\n"], .boot)
  else
    let mapEnd := u32 (mbi.mmapAddr.toNat + mbi.mmapLength.toNat)
    (MemoryInfo.walk m mapEnd fuel mbi.mmapAddr.toNat .boot).map fun s => ([], s)

/-! ## Well-formed maps -/

/-- An entry of a well-formed map: `size` counts the bytes after the size field, of which 20 are
described, and the memory lies in the 64-bit address space. -/
structure MmapEntry where
  size : BitVec 32
  addr : BitVec 64
  len : BitVec 64
  type : BitVec 32
  size_ge : 20 ≤ size.toNat
  fits : addr.toNat + len.toNat ≤ 2 ^ 64

namespace MmapEntry

/-- The entry holds usable memory. -/
def Usable (e : MmapEntry) : Prop := e.type = 1#32

/-- The address lies in the entry's memory. -/
def Contains (e : MmapEntry) (a : ℕ) : Prop := e.addr.toNat ≤ a ∧ a < e.addr.toNat + e.len.toNat

/-- The entry begins at or above 4 GB. -/
def High (e : MmapEntry) : Prop := 2 ^ 32 ≤ e.addr.toNat

instance (e : MmapEntry) : Decidable e.Usable := inferInstanceAs (Decidable (_ = _))

instance (e : MmapEntry) (a : ℕ) : Decidable (e.Contains a) := inferInstanceAs (Decidable (_ ∧ _))

instance (e : MmapEntry) : Decidable e.High := inferInstanceAs (Decidable (_ ≤ _))

/-- The region that `memory_init` records for the entry. -/
def region (e : MmapEntry) : Region := ⟨e.addr.setWidth 32, e.len.setWidth 32, e.type⟩

/-- The end of the entry's memory below 4 GB, `0` if it has none. -/
def lowEnd (e : MmapEntry) : ℕ :=
  if e.Usable ∧ ¬ e.High then min (e.addr.toNat + e.len.toNat) (2 ^ 32) else 0

/-- The entries lie one after the other from `p` to `stop`. -/
def Laid (m : Mem) (stop : ℕ) : ℕ → List MmapEntry → Prop
  | p, [] => p = stop
  | p, e :: es =>
    m.read32 p = e.size.toNat ∧ m.read64 (p + 4) = e.addr.toNat ∧ m.read64 (p + 12) = e.len.toNat ∧
      m.read32 (p + 20) = e.type.toNat ∧ Laid m stop (p + e.size.toNat + 4) es

/-- The largest end of the usable memory below 4 GB. -/
def lowTop : List MmapEntry → ℕ
  | [] => 0
  | e :: es => max e.lowEnd (lowTop es)

theorem lowEnd_le_lowTop {e : MmapEntry} {es : List MmapEntry} (he : e ∈ es) :
    e.lowEnd ≤ lowTop es := by
  induction es with
  | nil => simp at he
  | cons e' es ih =>
    rcases List.mem_cons.1 he with rfl | he
    · exact le_max_left _ _
    · exact (ih he).trans (le_max_right _ _)

theorem Laid.start_le {m : Mem} {stop p : ℕ} {es : List MmapEntry} (h : Laid m stop p es) :
    p ≤ stop := by
  induction es generalizing p with
  | nil => exact le_of_eq h
  | cons e es ih =>
    obtain ⟨-, -, -, -, h⟩ := h
    have := ih h
    omega

end MmapEntry

/-- The boot loader left the map `es` in memory. -/
structure MultibootInfo.HasMap (mbi : MultibootInfo) (m : Mem) (es : List MmapEntry) : Prop where
  flag : mbi.flags &&& (1#32 <<< 6) ≠ 0#32
  laid : MmapEntry.Laid m (mbi.mmapAddr.toNat + mbi.mmapLength.toNat) mbi.mmapAddr.toNat es
  fits : mbi.mmapAddr.toNat + mbi.mmapLength.toNat ≤ 2 ^ 32

namespace MemoryInfo

/-! ## What the walk records -/

/-- The body of the loop, for an entry. -/
def record (s : MemoryInfo) (e : MmapEntry) : MemoryInfo :=
  s.add e.region.base e.region.len e.region.type

/-- **The walk** over a well-formed map records its entries in order. -/
theorem walk_laid {m : Mem} {stop : ℕ} (hstop : stop < 2 ^ 32) {es : List MmapEntry} {p fuel : ℕ}
    (h : MmapEntry.Laid m stop p es) (hfuel : es.length < fuel) (s : MemoryInfo) :
    walk m stop fuel p s = some (es.foldl record s) := by
  induction es generalizing p fuel s with
  | nil =>
    obtain ⟨fuel, rfl⟩ := Nat.exists_eq_add_one.2 (Nat.zero_lt_of_lt hfuel)
    rw [walk, if_neg (by rw [show p = stop from h]; exact lt_irrefl _)]
    rfl
  | cons e es ih =>
    obtain ⟨fuel, rfl⟩ := Nat.exists_eq_add_one.2 (Nat.zero_lt_of_lt hfuel)
    obtain ⟨hsize, haddr, hlen, htype, hrest⟩ := h
    have hle := hrest.start_le
    have hge := e.size_ge
    simp only [walk]
    rw [if_pos (by omega), u32_of_lt (show p + 4 < 2 ^ 32 by omega),
      u32_of_lt (show p + 12 < 2 ^ 32 by omega), u32_of_lt (show p + 20 < 2 ^ 32 by omega), hsize,
      haddr, hlen, htype, u32_of_lt (show p + e.size.toNat < 2 ^ 32 by omega),
      u32_of_lt (show p + e.size.toNat + 4 < 2 ^ 32 by omega),
      ih hrest (by simpa using hfuel)]
    rw [List.foldl_cons, record, MmapEntry.region, BitVec.ofNat_toNat, BitVec.ofNat_toNat,
      BitVec.ofNat_toNat, BitVec.setWidth_eq]

theorem record_regions (s : MemoryInfo) (e : MmapEntry) :
    (s.record e).regions =
      if s.regions.length < maxRegions then s.regions ++ [e.region] else s.regions := by
  simp only [record, add]
  split_ifs <;> rfl

theorem record_highest (s : MemoryInfo) (e : MmapEntry) :
    (s.record e).highest.toNat = if e.Usable then
      max s.highest.toNat ((e.addr.toNat + e.len.toNat) % 2 ^ 32) else s.highest.toNat := by
  have hsum : (e.region.base + e.region.len).toNat = (e.addr.toNat + e.len.toNat) % 2 ^ 32 := by
    simp [MmapEntry.region]
  have hhighest : (s.record e).highest =
      if e.Usable ∧ e.region.base + e.region.len > s.highest then e.region.base + e.region.len
      else s.highest := by
    simp only [record, add, MmapEntry.Usable, show e.region.type = e.type from rfl]
    by_cases hu : e.type = 1#32
    · simp only [hu, if_true, true_and]
      split_ifs <;> simp_all
    · simp only [hu, if_false, false_and]
      split_ifs <;> rfl
  simp only [hhighest, gt_iff_lt, BitVec.lt_def, hsum]
  by_cases hu : e.Usable
  · simp only [hu, true_and, if_true]
    split_ifs with hlt
    · rw [hsum, max_eq_right hlt.le]
    · rw [max_eq_left (not_lt.1 hlt)]
  · simp only [hu, false_and, if_false]

theorem foldl_record_regions (es : List MmapEntry) (s : MemoryInfo)
    (hs : s.regions.length ≤ maxRegions) :
    (es.foldl record s).regions =
      s.regions ++ (es.take (maxRegions - s.regions.length)).map MmapEntry.region := by
  induction es generalizing s with
  | nil => simp
  | cons e es ih =>
    rw [List.foldl_cons]
    by_cases hlt : s.regions.length < maxRegions
    · have hregions : (s.record e).regions = s.regions ++ [e.region] := by
        rw [record_regions, if_pos hlt]
      have hlen : (s.record e).regions.length = s.regions.length + 1 := by simp [hregions]
      rw [ih _ (by omega), hlen, hregions,
        show maxRegions - s.regions.length = maxRegions - (s.regions.length + 1) + 1 by omega,
        List.take_succ_cons, List.map_cons, List.append_assoc, List.singleton_append]
    · have hregions : (s.record e).regions = s.regions := by rw [record_regions, if_neg hlt]
      rw [ih _ (hregions ▸ hs), hregions, show maxRegions - s.regions.length = 0 by omega,
        List.take_zero, List.take_zero]

theorem foldl_record_highest_le_iff (es : List MmapEntry) (s : MemoryInfo) (b : ℕ) :
    (es.foldl record s).highest.toNat ≤ b ↔ s.highest.toNat ≤ b ∧
      ∀ e ∈ es, e.Usable → (e.addr.toNat + e.len.toNat) % 2 ^ 32 ≤ b := by
  induction es generalizing s with
  | nil => simp
  | cons e es ih =>
    rw [List.foldl_cons, ih, record_highest, List.forall_mem_cons]
    split_ifs with he
    · simp only [he, true_imp_iff, max_le_iff, and_assoc]
    · simp only [he, false_imp_iff, true_and]

end MemoryInfo

/-! ## Truthful maps -/

/-- The recorded map claims nothing that the map of the boot loader does not say. -/
structure MemoryInfo.Truthful (s : MemoryInfo) (es : List MmapEntry) : Prop where
  regions : ∀ r ∈ s.regions, r.Usable → ∀ a, r.Contains a → ∃ e ∈ es, e.Usable ∧ e.Contains a
  highest : s.highest.toNat ≤ MmapEntry.lowTop es

/-- The condition on the entries above 4 GB: cut to 32 bits, their memory falls on usable memory,
and their end, cut to 32 bits, does not exceed the usable memory below 4 GB. -/
structure HighShadowed (es : List MmapEntry) : Prop where
  memory : ∀ e ∈ es.take maxRegions, e.Usable → e.High → ∀ a, e.addr.toNat % 2 ^ 32 ≤ a →
    a < e.addr.toNat % 2 ^ 32 + e.len.toNat % 2 ^ 32 → ∃ e' ∈ es, e'.Usable ∧ e'.Contains a
  stop : ∀ e ∈ es, e.Usable → e.High →
    (e.addr.toNat + e.len.toNat) % 2 ^ 32 ≤ MmapEntry.lowTop es

namespace MmapEntry

theorem region_contains_iff (e : MmapEntry) (a : ℕ) : e.region.Contains a ↔
    e.addr.toNat % 2 ^ 32 ≤ a ∧ a < e.addr.toNat % 2 ^ 32 + e.len.toNat % 2 ^ 32 := by
  simp [region, Region.Contains]

/-- What is recorded for an entry below 4 GB lies in the entry. -/
theorem contains_of_region {e : MmapEntry} (he : ¬ e.High) {a : ℕ} (h : e.region.Contains a) :
    e.Contains a := by
  rw [region_contains_iff] at h
  simp only [High, not_le] at he
  rw [Nat.mod_eq_of_lt he] at h
  exact ⟨h.1, by omega⟩

/-- The end of an entry below 4 GB, cut to 32 bits, does not exceed its memory below 4 GB. -/
theorem end_mod_le_lowEnd {e : MmapEntry} (hu : e.Usable) (he : ¬ e.High) :
    (e.addr.toNat + e.len.toNat) % 2 ^ 32 ≤ e.lowEnd := by
  rw [lowEnd, if_pos ⟨hu, he⟩]
  omega

end MmapEntry

/-- **The records are truthful exactly on maps whose high entries are shadowed.** -/
theorem MemoryInfo.foldl_record_truthful_iff (es : List MmapEntry) :
    (es.foldl record boot).Truthful es ↔ HighShadowed es := by
  have hregions : (es.foldl record boot).regions = (es.take maxRegions).map MmapEntry.region :=
    foldl_record_regions es boot (Nat.zero_le _)
  have hmem : ∀ e ∈ es.take maxRegions, e ∈ es := fun e he => List.mem_of_mem_take he
  constructor
  · rintro ⟨h1, h2⟩
    rw [foldl_record_highest_le_iff] at h2
    constructor
    · intro e he hu _ a hlo hhi
      refine h1 e.region ?_ hu a ((e.region_contains_iff a).2 ⟨hlo, hhi⟩)
      rw [hregions]
      exact List.mem_map_of_mem he
    · intro e he hu _
      exact h2.2 e he hu
  · rintro ⟨h1, h2⟩
    constructor
    · rw [hregions]
      intro r hr hu a ha
      obtain ⟨e, he, rfl⟩ := List.mem_map.1 hr
      by_cases hhigh : e.High
      · obtain ⟨hlo, hhi⟩ := (e.region_contains_iff a).1 ha
        exact h1 e he hu hhigh a hlo hhi
      · exact ⟨e, hmem e he, hu, MmapEntry.contains_of_region hhigh ha⟩
    · rw [foldl_record_highest_le_iff]
      refine ⟨Nat.zero_le _, ?_⟩
      intro e he hu
      by_cases hhigh : e.High
      · exact h2 e he hu hhigh
      · exact (MmapEntry.end_mod_le_lowEnd hu hhigh).trans (MmapEntry.lowEnd_le_lowTop he)

/-- Below 4 GB `memory_init` records the entries of the map in order. -/
theorem memoryInit_of_lt {m : Mem} {mbi : MultibootInfo} {es : List MmapEntry} (h : mbi.HasMap m es)
    (hlt : mbi.mmapAddr.toNat + mbi.mmapLength.toNat < 2 ^ 32) {fuel : ℕ}
      (hfuel : es.length < fuel) :
    memoryInit fuel m mbi = some ([], es.foldl MemoryInfo.record .boot) := by
  rw [memoryInit, if_neg h.flag]
  simp only [u32_of_lt hlt, MemoryInfo.walk_laid hlt h.laid hfuel, Option.map_some]

/-- **Parsing the memory map.** On every well-formed map `memory_init` returns, and what it records
is truthful if and only if the map ends at 4 GB, where the walk does not begin, or its entries above
4 GB are shadowed. -/
theorem memoryInit_truthful_iff {m : Mem} {mbi : MultibootInfo} {es : List MmapEntry}
    (h : mbi.HasMap m es) {fuel : ℕ} (hfuel : es.length < fuel) :
    ∃ s, memoryInit fuel m mbi = some ([], s) ∧
      (s.Truthful es ↔ mbi.mmapAddr.toNat + mbi.mmapLength.toNat = 2 ^ 32 ∨ HighShadowed es) := by
  rcases h.fits.lt_or_eq with hlt | heq
  · refine ⟨es.foldl MemoryInfo.record .boot, memoryInit_of_lt h hlt hfuel, ?_⟩
    rw [MemoryInfo.foldl_record_truthful_iff]
    simp only [hlt.ne, false_or]
  · obtain ⟨fuel, rfl⟩ := Nat.exists_eq_add_one.2 (Nat.zero_lt_of_lt hfuel)
    refine ⟨.boot, ?_, ?_⟩
    · rw [memoryInit, if_neg h.flag]
      simp only [heq, MemoryInfo.walk, u32, Nat.mod_self, Nat.not_lt_zero, if_false,
        Option.map_some]
    · have htruthful : MemoryInfo.boot.Truthful es := by
        refine ⟨?_, Nat.zero_le _⟩
        intro r hr
        simp [MemoryInfo.boot] at hr
      simp [heq, htruthful]

/-- **Free frames are usable memory.** On a truthful record without partial frames, every frame that
is free after `pmm_init` lies in usable entries of the boot loader's map. -/
theorem MemoryInfo.Truthful.free_frame {s : MemoryInfo} {es : List MmapEntry} (h : s.Truthful es)
    {img : KernelImage} (haligned : s.memMap.Aligned img) (ram : Bitmap) {f : ℕ}
    (hf : f < (Pmm.pmmInit img s.memMap ram).totalFrames)
    (hfree : (Pmm.pmmInit img s.memMap ram).frameTest f = false) {a : ℕ} (hlo : 4096 * f ≤ a)
    (hhi : a < 4096 * f + 4096) : ∃ e ∈ es, e.Usable ∧ e.Contains a := by
  rw [Pmm.pmmInit_totalFrames] at hf
  obtain ⟨hres, r, hr, hfrees⟩ := (Pmm.pmmInit_free_iff img s.memMap ram hf).1 hfree
  obtain ⟨r', hr', hu, hin⟩ := (haligned.wholeFrame ram hf hres hr hfrees).inside a hlo hhi
  exact h.regions r' hr' hu a hin

/-! ## Memory above 4 GB -/

/-- 7 MB from 1 MB on. -/
def lowEntry : MmapEntry := ⟨20#32, 0x100000#64, 0x700000#64, 1#32, by decide, by decide⟩

/-- 1 GB from 4 GB on. -/
def highEntry : MmapEntry := ⟨20#32, 0x100000000#64, 0x40000000#64, 1#32, by decide, by decide⟩

/-- The two entries at `0x9000`. -/
def highMap : Mem :=
  [(0x9000, 20), (0x9004, 0x100000), (0x900c, 0x700000), (0x9014, 1), (0x9018, 20), (0x9020, 1),
    (0x9024, 0x40000000), (0x902c, 1)].foldl (fun m w => m.write32 w.1 w.2) fun _ => 0

theorem highMap_hasMap :
    MultibootInfo.HasMap ⟨0x40#32, 48#32, 0x9000#32⟩ highMap [lowEntry, highEntry] where
  flag := by decide
  laid := by simp only [MmapEntry.Laid]; decide +kernel
  fits := by decide

/-- The high entry is recorded as 1 GB from address 0 on: the map counts as 1 GB of usable
memory. -/
theorem memoryInit_not_truthful : ∃ (m : Mem) (mbi : MultibootInfo) (es : List MmapEntry),
    mbi.HasMap m es ∧ ∀ fuel > es.length, ∃ s, memoryInit fuel m mbi = some ([], s) ∧
      s.highest = 0x40000000#32 ∧ MmapEntry.lowTop es = 0x800000 ∧ ¬ s.Truthful es := by
  refine ⟨highMap, _, _, highMap_hasMap, ?_⟩
  intro fuel hfuel
  refine ⟨_, memoryInit_of_lt highMap_hasMap (by decide) hfuel, by decide, by decide, ?_⟩
  intro h
  exact absurd h.highest (by decide)

/-- The low entry alone is recorded truthfully. -/
theorem memoryInit_truthful_low : ∃ s,
    memoryInit 2 highMap ⟨0x40#32, 24#32, 0x9000#32⟩ = some ([], s) ∧ s.Truthful [lowEntry] := by
  have hmap : MultibootInfo.HasMap ⟨0x40#32, 24#32, 0x9000#32⟩ highMap [lowEntry] :=
    ⟨by decide, by simp only [MmapEntry.Laid]; decide +kernel, by decide⟩
  obtain ⟨s, hs, hiff⟩ := memoryInit_truthful_iff hmap (by decide : [lowEntry].length < 2)
  refine ⟨s, hs, hiff.2 (Or.inr ⟨?_, ?_⟩)⟩
  · intro e he _ hhigh
    rw [List.mem_singleton.1 (List.mem_of_mem_take he)] at hhigh
    exact absurd hhigh (by decide)
  · intro e he _ hhigh
    rw [List.mem_singleton.1 he] at hhigh
    exact absurd hhigh (by decide)

end JarvisOS
