import JarvisOS.Kernel.Mapping
import JarvisOS.Physical.Counting
import JarvisOS.Physical.Reserved

/-!
# Failed mappings

A mapping takes up to two frames, one for the page and one for its table, and gives back what it has
taken when it fails. It restores the state exactly, unless frame 0 is free: `pmm_alloc_frame` then
marks frame 0 and returns its address `0`, which every caller reads as a failure
(`failed_mapping_iff`). Frame 0 is reserved at boot, and only the shell's `free` can give it back.
-/

namespace JarvisOS

open Foundations Prog

/-! ## Frame 0 -/

namespace Pmm

/-- Frame 0 exists and is free. -/
def ZeroFree (p : Pmm) : Prop := 0 < p.totalFrames ∧ p.frameTest 0 = false

instance (p : Pmm) : Decidable p.ZeroFree := inferInstanceAs (Decidable (_ ∧ _))

/-- With frame 0 in use, an allocator with an exact counter is sound. -/
theorem Tallied.sound {p : Pmm} (h : p.Tallied) (h0 : ¬ p.ZeroFree) : p.Sound := by
  refine ⟨h.sized, h.padded, ?_, h.usedFrames_lt.trans (by decide)⟩
  rcases Nat.eq_zero_or_pos p.totalFrames with hnone | hpos
  · exact Or.inr hnone
  · exact Or.inl (by simpa using fun hfree => h0 ⟨hpos, hfree⟩)

theorem Sound.not_zeroFree {p : Pmm} (h : p.Sound) : ¬ p.ZeroFree := by
  rintro ⟨hpos, hfree⟩
  rcases h.zero with hused | hnone
  · simp [hused] at hfree
  · omega

/-- A free frame 0 is handed out as the address `0`. -/
theorem Tallied.pmmAllocFrame_of_zeroFree {p : Pmm} (h : p.Tallied) (h0 : p.ZeroFree) :
    p.pmmAllocFrame = (0, p.frameMarkUsed 0) := by
  rcases pmmAllocFrame_cases h.sized h.padded with ⟨-, hall⟩ | ⟨f, hf, e⟩
  · exact absurd (hall 0 h0.1) (by simp [h0.2])
  · have hle : f ≤ 0 := hf.2 h0
    rw [e, Nat.le_zero.1 hle]

theorem frameMarkUsed_ne {p : Pmm} {f : ℕ} (hf : f < p.totalFrames)
    (hfree : p.frameTest f = false) :
    p.frameMarkUsed f ≠ p := by
  intro e
  have hbit := frameTest_frameMarkUsed p f f
  rw [e, hfree] at hbit
  simp [hf] at hbit

end Pmm

/-! ## What the paging code does to the allocator -/

/-- The property survives taking a frame and giving back one other than frame 0. -/
structure AllocClosed (P : Pmm → Prop) : Prop where
  alloc : ∀ p, P p → P p.pmmAllocFrame.2
  free : ∀ p a, P p → a ≠ 0 → frameSize ∣ a → P (p.pmmFreeFrame a)

/-- The address of a frame is aligned. -/
theorem Pmm.dvd_pmmAllocFrame (p : Pmm) : frameSize ∣ p.pmmAllocFrame.1 := by
  unfold pmmAllocFrame
  split
  · exact dvd_zero _
  · split_ifs
    · exact dvd_zero _
    · rw [u32, Nat.dvd_mod_iff (by decide)]
      exact Nat.dvd_mul_left _ _

theorem allocClosed_tallied : AllocClosed Pmm.Tallied :=
  ⟨fun _ h => h.pmmAllocFrame, fun _ a h _ _ => h.pmmFreeFrame a⟩

theorem allocClosed_sound : AllocClosed Pmm.Sound := by
  refine ⟨fun p h => ?_, fun p a h ha hdvd => ?_⟩
  · rcases h.pmmAllocFrame_spec with ⟨e, -⟩ | ⟨f, -, -, e⟩
    · rw [e]
      exact h
    · rw [e]
      exact h.frameMarkUsed f
  · obtain ⟨f, rfl⟩ := hdvd
    rw [Pmm.pmmFreeFrame_mul]
    exact h.frameMarkFree (Nat.pos_of_mul_pos_left (Nat.pos_of_ne_zero ha)).ne'

namespace Paging

variable {P : Pmm → Prop} {e : Paging}

theorem getTable_lookup_snd (virt : ℕ) (e : Paging) : (e.getTable virt false).2 = e := by
  unfold getTable
  simp only
  split_ifs <;> first | rfl | contradiction

theorem getTable_closed (hP : AllocClosed P) (h : P e.pmm) (virt : ℕ) (create : Bool) :
    P (e.getTable virt create).2.pmm := by
  unfold getTable
  simp only
  split_ifs with h1 h2 h3
  · exact h
  · exact h
  · exact hP.alloc _ h
  · exact hP.free _ _ (hP.alloc _ h) h3 e.pmm.dvd_pmmAllocFrame
  · exact hP.alloc _ h

theorem pagingMap_pmm (virt phys flags : ℕ) (e : Paging) :
    (e.pagingMap virt phys flags).2.pmm = (e.getTable virt true).2.pmm := by
  unfold pagingMap
  simp only
  split_ifs <;> rfl

theorem pagingMap_closed (hP : AllocClosed P) (h : P e.pmm) (virt phys flags : ℕ) :
    P (e.pagingMap virt phys flags).2.pmm := by
  rw [pagingMap_pmm]
  exact getTable_closed hP h virt true

theorem pagingUnmap_pmm (virt : ℕ) (e : Paging) : (e.pagingUnmap virt).2.pmm = e.pmm := by
  unfold pagingUnmap
  simp only [getTable_lookup_snd]
  split_ifs <;> rfl

theorem mapFresh_closed (hP : AllocClosed P) (h : P e.pmm) (virt : ℕ) :
    P (e.mapFresh virt).2.pmm := by
  have hmapped := pagingMap_closed hP (e := { e with pmm := e.pmm.pmmAllocFrame.2 })
    (hP.alloc _ h) virt
    e.pmm.pmmAllocFrame.1 pageWrite
  unfold mapFresh
  simp only
  split_ifs with h1
  · exact hP.alloc _ h
  · exact hP.free _ _ hmapped h1 e.pmm.dvd_pmmAllocFrame
  · exact hmapped

theorem cmdMap_closed (hP : AllocClosed P) (h : P e.pmm) (addr : ℕ) : P (e.cmdMap addr).2.pmm := by
  have hfresh := mapFresh_closed hP h (pageOf addr)
  rw [cmdMap_snd]
  simp only
  split_ifs
  · exact h
  · exact hfresh
  · exact hfresh

theorem identityLoop_closed (hP : AllocClosed P) (h : P e.pmm) (pages addr : ℕ) :
    P (identityLoop pages addr e).2.pmm := by
  induction pages generalizing addr e with
  | zero => exact h
  | succ pages ih =>
    have hmapped := pagingMap_closed hP h addr addr pageWrite
    unfold identityLoop
    simp only
    split_ifs
    · exact hmapped
    · exact ih hmapped _

theorem pagingInit_closed (hP : AllocClosed P) (h : P e.pmm) (highest : ℕ) :
    P (e.pagingInit highest).2.pmm := by
  unfold pagingInit
  simp only
  split_ifs
  · exact hP.alloc _ h
  · exact identityLoop_closed hP (by exact hP.alloc _ h) _ _
  · exact identityLoop_closed hP (by exact hP.alloc _ h) _ _

end Paging

/-! ## A mapping that fails -/

namespace Paging

variable {e : Paging} {virt phys flags addr : ℕ}

/-- The directory has a table for the address. -/
def HasTable (e : Paging) (virt : ℕ) : Prop := e.dirEntry (dirIndex virt) &&& pagePresent ≠ 0

/-- With the table there, `paging_map` changes nothing when it fails. -/
theorem pagingMap_failed_of_hasTable (ht : e.HasTable virt)
    (h : (e.pagingMap virt phys flags).1 = 0) : (e.pagingMap virt phys flags).2 = e := by
  have htable : e.getTable virt true = (frameOf (e.dirEntry (dirIndex virt)), e) := if_pos ht
  unfold pagingMap at h ⊢
  rw [htable] at h ⊢
  simp only at h ⊢
  split_ifs at h ⊢
  rfl

/-- With frame 0 in use, `paging_map` changes nothing when it fails. -/
theorem pagingMap_failed_of_sound (hs : e.pmm.Sound) (h : (e.pagingMap virt phys flags).1 = 0) :
    (e.pagingMap virt phys flags).2 = e := by
  by_cases ht : e.HasTable virt
  · exact pagingMap_failed_of_hasTable ht h
  · rcases PageMap.getTable_create_of_absent hs (not_not.1 ht)
      with ⟨htable, -⟩ | ⟨f, h0, -, -, htable⟩
    · unfold pagingMap
      rw [htable]
      rfl
    · unfold pagingMap at h
      rw [htable] at h
      simp only at h
      rw [if_neg (by omega)] at h
      exact absurd h Nat.one_ne_zero

/-- With frame 0 free and no table, `paging_map` fails and takes frame 0. -/
theorem pagingMap_of_zeroFree (h : e.pmm.Tallied) (h0 : e.pmm.ZeroFree) (ht : ¬ e.HasTable virt) :
    e.pagingMap virt phys flags = (0, { e with pmm := e.pmm.frameMarkUsed 0 }) := by
  have htable : e.getTable virt true = (0, { e with pmm := e.pmm.frameMarkUsed 0 }) := by
    unfold getTable
    simp only [h.pmmAllocFrame_of_zeroFree h0]
    rw [if_neg (by exact ht), if_neg (by decide), if_pos trivial]
  unfold pagingMap
  rw [htable]
  rfl

/-- **`paging_map` leaves no trace when it fails**, exactly when it finds a table or frame 0 is in
use. -/
theorem pagingMap_failed_iff (h : e.pmm.Tallied) :
    ((e.pagingMap virt phys flags).1 = 0 → (e.pagingMap virt phys flags).2 = e) ↔
      e.HasTable virt ∨ ¬ e.pmm.ZeroFree := by
  constructor
  · intro hclean
    by_contra hnot
    obtain ⟨ht, h0⟩ := not_or.1 hnot
    have h0 := not_not.1 h0
    rw [pagingMap_of_zeroFree h h0 ht] at hclean
    exact Pmm.frameMarkUsed_ne h0.1 h0.2 (congrArg Paging.pmm (hclean rfl))
  · rintro (ht | h0) hfail
    · exact pagingMap_failed_of_hasTable ht hfail
    · exact pagingMap_failed_of_sound (h.sound h0) hfail

/-- What `cmd_map` prints when it reports a failure. -/
def MapFailure (out : List Output) : Prop :=
  out = [.str "that address is already mapped\n"] ∨ out = [.str "out of physical memory\n"] ∨
    out = [.str "mapping failed (no frame for a page table)\n"]

/-- With frame 0 in use, `cmd_map` changes nothing when it reports a failure. -/
theorem cmdMap_failed_of_sound (hs : e.pmm.Sound) (h : MapFailure (e.cmdMap addr).1) :
    (e.cmdMap addr).2 = e := by
  rcases hs.pmmAllocFrame_spec with ⟨e0, -⟩ | ⟨f, h0, hf, e0⟩
  · simp only [cmdMap, e0]
    split_ifs
    · rfl
    · rfl
    · rfl
  · have hmarked : { e with pmm := e.pmm.frameMarkUsed f }.pmm.Sound := hs.frameMarkUsed f
    have hback : (e.pmm.frameMarkUsed f).frameMarkFree f = e.pmm :=
      hs.frameMarkFree_frameMarkUsed hf.1.1 hf.1.2
    simp only [cmdMap, e0] at h ⊢
    split_ifs at h ⊢ with h1 h2 h3 h4
    · rfl
    · rfl
    · omega
    · -- the table's frame has been given back, and now the page's
      rw [pagingMap_failed_of_sound hmarked h4, Pmm.pmmFreeFrame_mul]
      exact congrArg (fun pmm => { e with pmm := pmm }) hback
    · simp [MapFailure] at h

/-- With frame 0 free, `cmd_map` of a page that is not mapped reports a failure and takes frame
0. -/
theorem cmdMap_of_zeroFree (h : e.pmm.Tallied) (h0 : e.pmm.ZeroFree) (hv : pageOf addr ≠ 0)
    (hno : e.pagingTranslate (pageOf addr) = pageUnmapped) : e.cmdMap addr =
      ([.str "out of physical memory\n"], { e with pmm := e.pmm.frameMarkUsed 0 }) := by
  simp only [cmdMap, h.pmmAllocFrame_of_zeroFree h0]
  rw [if_neg hv, if_neg (not_not.2 hno), if_pos trivial]

/-- **`cmd_map` leaves no trace when it reports a failure**, exactly when it has no page to map or
frame 0 is in use. -/
theorem cmdMap_failed_iff (h : e.pmm.Tallied) :
    (MapFailure (e.cmdMap addr).1 → (e.cmdMap addr).2 = e) ↔
      pageOf addr = 0 ∨ e.pagingTranslate (pageOf addr) ≠ pageUnmapped ∨ ¬ e.pmm.ZeroFree := by
  constructor
  · intro hclean
    by_contra hnot
    obtain ⟨hv, hnot⟩ := not_or.1 hnot
    obtain ⟨hno, h0⟩ := not_or.1 hnot
    have h0 := not_not.1 h0
    rw [cmdMap_of_zeroFree h h0 hv (not_not.1 hno)] at hclean
    exact Pmm.frameMarkUsed_ne h0.1 h0.2 (congrArg Paging.pmm (hclean (Or.inr (Or.inl rfl))))
  · rintro (hv | hno | h0) hfail
    · unfold cmdMap
      rw [if_pos hv]
    · rw [cmdMap_snd, if_pos (Or.inr hno)]
    · exact cmdMap_failed_of_sound (h.sound h0) hfail

end Paging

/-! ## Every reachable state -/

/-- What happens to the page tables and the frame allocator after `paging_init`. -/
inductive MemoryEvent
  | alloc
  | free (addr : ℕ)
  | map (addr : ℕ)
  | unmap (addr : ℕ)
  /-- The heap grows by one page. -/
  | growPage (virt : ℕ)
  /-- Memory is written; `m` is the memory afterwards. -/
  | write (m : Mem)

namespace MemoryEvent

/-- The state after an event. -/
def apply (e : Paging) : MemoryEvent → Paging
  | alloc => { e with pmm := e.pmm.cmdAlloc.2.2 }
  | free addr => { e with pmm := (e.pmm.cmdFree addr).2 }
  | map addr => (e.cmdMap addr).2
  | unmap addr => (e.cmdUnmap addr).2
  | growPage virt => (e.mapFresh virt).2
  | write m => { e with ram := m }

/-- The frame at `a` is given back by the shell. -/
def GivesBack (e : Paging) : MemoryEvent → ℕ → Prop
  | free addr, a => addr ≠ 0 ∧ a = addr
  | unmap addr, a => e.pagingTranslate (Paging.pageOf addr) ≠ pageUnmapped ∧
      e.identityEnd ≤ Paging.pageOf addr ∧
        a = Paging.pageOf (e.pagingTranslate (Paging.pageOf addr))
  | _, _ => False

/-- The shell does not give back frame 0. -/
def SparesZero (e : Paging) (c : MemoryEvent) : Prop := ∀ a, c.GivesBack e a → frameSize ≤ a

/-- **What an event keeps**, besides what the shell gives back. -/
theorem closed {P : Pmm → Prop} (hP : AllocClosed P) {e : Paging} (h : P e.pmm) {c : MemoryEvent}
    (hc : ∀ a, c.GivesBack e a → P (e.pmm.pmmFreeFrame a)) : P (c.apply e).pmm := by
  cases c with
  | alloc =>
    show P e.pmm.cmdAlloc.2.2
    rw [Pmm.cmdAlloc_pmm]
    exact hP.alloc _ h
  | free addr =>
    show P (e.pmm.cmdFree addr).2
    unfold Pmm.cmdFree
    split_ifs with h0
    · exact h
    · exact hc addr ⟨h0, rfl⟩
  | map addr => exact Paging.cmdMap_closed hP h addr
  | unmap addr =>
    show P (e.cmdUnmap addr).2.pmm
    rw [Paging.cmdUnmap_snd]
    split_ifs with hrefused
    · exact h
    · obtain ⟨h0, h1⟩ := not_or.1 hrefused
      simp only [Paging.pagingUnmap_pmm]
      exact hc _ ⟨h0, not_lt.1 h1, rfl⟩
  | growPage virt => exact Paging.mapFresh_closed hP h virt
  | write m => exact h

theorem tallied {e : Paging} (h : e.pmm.Tallied) (c : MemoryEvent) : (c.apply e).pmm.Tallied :=
  closed allocClosed_tallied h fun a _ => h.pmmFreeFrame a

/-- An event that spares frame 0 keeps it in use. -/
theorem sound {e : Paging} (h : e.pmm.Sound) {c : MemoryEvent} (hc : c.SparesZero e) :
    (c.apply e).pmm.Sound := by
  refine closed allocClosed_sound h ?_
  intro a ha
  have hle := hc a ha
  exact h.frameMarkFree (Nat.div_pos hle (by decide)).ne'

end MemoryEvent

/-- The states reached by events that `Allowed` admits, from what `paging_init` has left after
`pmm_init`, for any memory map. -/
def MemoryReach (Allowed : Paging → MemoryEvent → Prop) : Paging → Prop :=
  Reach (fun e => ∃ img mm ram m, e = bootPaging mm ⟨.pmmInit img mm ram, []⟩ m) fun e t =>
    ∃ c : MemoryEvent, Allowed e c ∧ t = c.apply e

namespace MemoryReach

variable {Allowed : Paging → MemoryEvent → Prop} {e : Paging}

/-- **In every reachable state the counter is exact.** -/
theorem tallied (h : MemoryReach Allowed e) : e.pmm.Tallied := by
  refine Reach.invariant (I := fun e => e.pmm.Tallied) h ?_ ?_
  · rintro e ⟨img, mm, ram, m, rfl⟩
    exact Paging.pagingInit_closed (e := Paging.zeroed m _) allocClosed_tallied
      (Pmm.pmmInit_tallied img mm ram) _
  · rintro e t - htallied ⟨c, -, rfl⟩
    exact c.tallied htallied

/-- **Frame 0 stays in use** as long as the shell does not give it back. -/
theorem sound (h : MemoryReach Allowed e) (hA : ∀ e c, Allowed e c → c.SparesZero e) :
    e.pmm.Sound := by
  refine Reach.invariant (I := fun e => e.pmm.Sound) h ?_ ?_
  · rintro e ⟨img, mm, ram, m, rfl⟩
    exact Paging.pagingInit_closed (e := Paging.zeroed m _) allocClosed_sound
      (FrameReach.init img mm ram).sound _
  · rintro e t - hsound ⟨c, hc, rfl⟩
    exact MemoryEvent.sound hsound (hA _ _ hc)

end MemoryReach

/-- **A failed mapping leaves no trace exactly when frame 0 is in use.** In every reachable state:
`paging_map` changes nothing when it fails, if and only if the directory has a table for the address
or frame 0 is in use; `cmd_map` changes nothing when it reports a failure, if and only if it has no
page to map or frame 0 is in use; and frame 0 is in use after every run in which the shell does not
give it back. -/
theorem failed_mapping_iff {Allowed : Paging → MemoryEvent → Prop} {e : Paging}
    (h : MemoryReach Allowed e) :
    (∀ virt phys flags,
      ((e.pagingMap virt phys flags).1 = 0 → (e.pagingMap virt phys flags).2 = e) ↔
      e.HasTable virt ∨ ¬ e.pmm.ZeroFree) ∧
    (∀ addr, (Paging.MapFailure (e.cmdMap addr).1 → (e.cmdMap addr).2 = e) ↔
      Paging.pageOf addr = 0 ∨ e.pagingTranslate (Paging.pageOf addr) ≠ pageUnmapped ∨
        ¬ e.pmm.ZeroFree) ∧
    ((∀ e c, Allowed e c → c.SparesZero e) → ¬ e.pmm.ZeroFree) :=
  ⟨fun _ _ _ => Paging.pagingMap_failed_iff h.tallied, fun _ => Paging.cmdMap_failed_iff h.tallied,
    fun hA => (h.sound hA).not_zeroFree⟩

/-- The small machine after boot. -/
theorem memoryReach_small : MemoryReach (fun _ _ => True) smallPaging :=
  .start ⟨smallImage, smallMap, fun _ => 0#32, fun _ => 0, rfl⟩

/-- On the small machine after boot a mapping at `0xD0000000` leaves no trace if it fails. -/
theorem failed_mapping_small :
    ((smallPaging.pagingMap 0xD0000000 0x15000 pageWrite).1 = 0 →
        (smallPaging.pagingMap 0xD0000000 0x15000 pageWrite).2 = smallPaging) ∧
      (Paging.MapFailure (smallPaging.cmdMap 0xD0000000).1 →
        (smallPaging.cmdMap 0xD0000000).2 = smallPaging) := by
  have hzero : ¬ smallPaging.pmm.ZeroFree := by decide +kernel
  obtain ⟨hpaging, hcmd, -⟩ := failed_mapping_iff memoryReach_small
  exact ⟨(hpaging _ _ _).2 (Or.inr hzero), (hcmd _).2 (Or.inr (Or.inr hzero))⟩

/-- The small machine after `free 1`. -/
def zeroFreed : Paging := (MemoryEvent.free 1).apply smallPaging

/-- **A failed mapping that leaves a trace.** On the small machine, after `free 1`, `paging_map` and
`cmd_map` at `0xD0000000` fail and leave one more frame in use. -/
theorem failed_mapping_traced : MemoryReach (fun _ _ => True) zeroFreed ∧
    (zeroFreed.pagingMap 0xD0000000 0x200000 pageWrite).1 = 0 ∧
    (zeroFreed.pagingMap 0xD0000000 0x200000 pageWrite).2 ≠ zeroFreed ∧
    (zeroFreed.cmdMap 0xD0000000).1 = [.str "out of physical memory\n"] ∧
    (zeroFreed.cmdMap 0xD0000000).2.pmm.usedFrames = zeroFreed.pmm.usedFrames + 1 := by
  have hused : (zeroFreed.pagingMap 0xD0000000 0x200000 pageWrite).2.pmm.usedFrames ≠
      zeroFreed.pmm.usedFrames := by
    decide +kernel
  refine ⟨memoryReach_small.next ⟨.free 1, trivial, rfl⟩, by decide +kernel, ?_, by decide +kernel,
    by decide +kernel⟩
  intro e
  exact hused (congrArg (fun t => t.pmm.usedFrames) e)

end JarvisOS
