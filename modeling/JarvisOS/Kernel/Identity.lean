import JarvisOS.Kernel.Mapping

/-!
# The identity map is established and never lost

`KernelInv` holds in every state of the kernel after boot: the heap is not ready or satisfies its
invariant, and the page tables satisfy `VmInv`. It follows that the identity map that
`paging_init` has set up is kept by every command, and that the directory and all page tables stay
below its end (`identity_map_kept`).
-/

namespace JarvisOS

open Foundations Prog

/-! ## What heap calls do to the page tables -/

/-- An allocation changes the page tables by growing the heap only. -/
theorem Allocated.env {σ : Type} {B : Backing σ} {size p : ℕ} {s t : HeapState σ} {l l' : List Seg}
    (h : Allocated B size s l p t l') :
    t.env = s.env ∨ t.env = (mapPages B (growthPages size) s.brk s).2.env := by
  cases h with
  | found ht =>
    rw [ht.state]
    exact Or.inl rfl
  | grown _ hu _ ht =>
    rw [ht.state, HeapState.setMem_env, hu.state]
    exact Or.inr rfl
  | ceiling => exact Or.inl rfl
  | refused => exact Or.inr rfl

/-- A heap that is not ready allocates nothing. -/
theorem run_kmalloc_of_not_ready {σ : Type} (B : Backing σ) {s : HeapState σ} (h : s.ready = 0)
    (n : ℕ) : run (heapAct B) (kmalloc n) s = some (0, s) := by
  simp [kmalloc, heapAct, h]

/-! ## The kernel's invariant -/

/-- **The kernel's invariant.** -/
structure KernelInv (boot : Paging) (q : KernelSystem) : Prop where
  heap : q.heap.ready = 0 ∧ q.live = ∅ ∨ ∃ l, HeapInv q l
  vm : ∃ pages held, VmInv boot q.heap.env pages held

namespace KernelInv

variable {boot : Paging} {q r : KernelSystem}

/-- `heap_init` maps the first pages of the heap. -/
theorem started {pages : ℕ → Option ℕ} {held : Set ℕ} (hboot : VmInv boot boot pages held)
    (h : KernelStarted boot q) : KernelInv boot q := by
  obtain ⟨⟨m, hrun⟩, hlive⟩ := h
  obtain ⟨t, hrun', henv, hready, -⟩ := run_heapInit kernelBacking m boot
  obtain rfl : q.heap = t := by
    rw [hrun'] at hrun
    exact (Prod.mk.inj (Option.some.inj hrun)).2.symm
  refine ⟨hready.imp (fun h0 => ⟨h0.1, hlive⟩) fun h1 => ?_, ?_⟩
  · exact ⟨_, HeapInv.started (B := kernelBacking) ⟨⟨m, boot, hrun⟩, h1.1, hlive⟩⟩
  · rw [henv]
    exact (VmInv.mapPages (s := heapEmpty m boot) hboot le_rfl (by decide)).1

/-- A call of the heap. -/
theorem heapStep (h : KernelInv boot q) {c : HeapEvent Paging} (hc : Requested q c)
    (hb : ∀ e, c ≠ .backing e) (hs : HeapStep kernelBacking c q r) : KernelInv boot r := by
  obtain ⟨hheap, pages, held, hvm⟩ := h
  rcases hheap with ⟨hready, hlive⟩ | ⟨l, hinv⟩
  · cases hs with
    | kmalloc hrun =>
      rw [run_kmalloc_of_not_ready kernelBacking hready] at hrun
      obtain ⟨rfl, rfl⟩ := Prod.mk.inj (Option.some.inj hrun)
      exact ⟨Or.inl ⟨hready, hlive⟩, pages, held, hvm⟩
    | kfree =>
      obtain ⟨b, hb, -⟩ := hc
      exact absurd hb (hlive ▸ Set.notMem_empty b)
    | write => exact ⟨Or.inl ⟨hready, hlive⟩, pages, held, hvm⟩
    | @backing _ _ e => exact absurd rfl (hb e)
  · have hnext := hs.inv hinv (hc.windowed (B := kernelBacking) hinv)
    refine ⟨Or.inr hnext, ?_⟩
    cases hs with
    | @kmalloc s live n p t hrun =>
      obtain ⟨p', t', l', hrun', ha⟩ := runs_kmalloc (B := kernelBacking) hinv.tiled hc.1
        (hc.2.trans_lt (by decide)) (growthInWindow_of_le hinv.tiled hc.2)
      obtain ⟨rfl, rfl⟩ := hrun'.unique hrun
      rcases ha.env with e | e <;> simp only [e]
      · exact ⟨pages, held, hvm⟩
      · exact (hvm.mapPages (hinv.tiled.tiles ▸ Nat.le_add_right _ _)
          (growth_lt_of_le hinv.tiled hc.2)).1
    | @kfree s live ptr r t hrun =>
      obtain ⟨b, hlive, rfl⟩ := hc
      obtain ⟨pre, x, post, rfl, hx, -, hp⟩ := hinv.exists_block hlive
      obtain ⟨m, t', hrun', hr⟩ := runs_kfree (B := kernelBacking) hinv.tiled hx
      rw [← hp] at hrun'
      obtain ⟨rfl, rfl⟩ := hrun'.unique hrun
      rw [hr.state]
      exact ⟨pages, held, hvm⟩
    | write => exact ⟨pages, held, hvm⟩
    | @backing _ _ e => exact absurd rfl (hb e)

/-- The page tables change behind the heap. -/
theorem onConsole (h : KernelInv boot q) {out : List Output × Paging}
    (hvm : ∃ pages held, VmInv boot out.2 pages held) :
    KernelInv boot ⟨q.heap.onConsole out, q.live⟩ := by
  refine ⟨h.heap.imp_right fun ⟨l, hl⟩ => ⟨l, ?_⟩, hvm⟩
  exact ⟨hl.tiled.congr rfl rfl rfl fun _ _ _ _ _ => rfl, hl.accounts⟩

/-- **Every step keeps the invariant.** -/
theorem step (h : KernelInv boot q) (hs : KernelStep q r) : KernelInv boot r := by
  obtain ⟨pages, held, hvm⟩ := h.vm
  cases hs with
  | heap hc hb hs => exact h.heapStep hc hb hs
  | alloc => exact h.onConsole ⟨pages, hvm.cmdAlloc⟩
  | map _ ha => exact h.onConsole (hvm.cmdMap ha)
  | unmap _ ha _ => exact h.onConsole (hvm.cmdUnmap ha)

end KernelInv

/-- The page tables after `paging_init`. -/
theorem vmInv_boot {img : KernelImage} {mm : MemMap} {ram : Bitmap} {fs : FrameState}
    (hfs : FrameReach img mm ram fs) {m : Mem} (hen : (bootPaging mm fs m).enabled ≠ 0) :
    VmInv (bootPaging mm fs m) (bootPaging mm fs m)
      (identityPages ((bootPaging mm fs m).identityEnd / pageSize)) {a | a ∈ fs.out} := by
  have hno : ∀ page a, (bootPaging mm fs m).identityEnd / pageSize ≤ page →
      identityPages ((bootPaging mm fs m).identityEnd / pageSize) page ≠ some a := by
    intro page a hle ha
    rw [identityPages, if_neg (by omega)] at ha
    cases ha
  exact ⟨.start ⟨img, mm, ram, fs, m, hfs, rfl, hen, rfl, rfl⟩, Paging.SameBoot.refl _,
    fun page a hle ha => absurd ha (hno page a hle),
    fun page _ a hle _ ha _ => absurd ha (hno page a hle)⟩

/-- **Every state of the kernel satisfies the invariant.** -/
theorem KernelReach.inv {img : KernelImage} {mm : MemMap} {ram : Bitmap} {fs : FrameState}
    (hfs : FrameReach img mm ram fs) {m : Mem} (hen : (bootPaging mm fs m).enabled ≠ 0)
    {q : KernelSystem} (h : KernelReach (bootPaging mm fs m) q) :
    KernelInv (bootPaging mm fs m) q :=
  h.invariant (I := KernelInv (bootPaging mm fs m))
    (fun _ h0 => KernelInv.started (vmInv_boot hfs hen) h0) fun _ _ _ hq hs => hq.step hs

/-! ## The identity map -/

/-- The directory and every page table lie below the end of the identity window. -/
def TablesBelow (s : Paging) : Prop :=
  s.pageDirectory + pageSize ≤ s.identityEnd ∧
    ∀ i < 1024, s.dirEntry i &&& pagePresent ≠ 0 → frameOf (s.dirEntry i) + pageSize ≤ s.identityEnd

/-- Every address below the end of the identity window translates to itself. -/
def IdentityMapped (s : Paging) : Prop := ∀ v < s.identityEnd, s.pagingTranslate v = v

namespace PageInv

variable {q : PageSystem} {tabs : ℕ → Option ℕ}

theorem tablesBelow (h : PageInv q tabs) : TablesBelow q.paging := by
  have hfit : ∀ {a}, q.paging.pmm.InUse a → a < q.paging.identityEnd →
      a + pageSize ≤ q.paging.identityEnd := by
    rintro a ⟨f, -, -, rfl, -⟩ hlt
    obtain ⟨k, hk⟩ := h.aligned
    simp only [pageSize] at *
    omega
  refine ⟨hfit h.refines.dir h.dir_lt, fun i hi hpres => ?_⟩
  obtain ⟨hsome, hname⟩ := h.refines.dirEntry_present hi
  obtain ⟨t, ht⟩ := Option.isSome_iff_exists.1 (hsome.1 hpres)
  rw [hname t ht]
  exact hfit (h.refines.table i t ht).1 (h.refines.table i t ht).2

theorem identityMapped (h : PageInv q tabs) : IdentityMapped q.paging := by
  intro v hv
  have hwindow := h.window
  have hpage : v / pageSize < q.paging.identityEnd / pageSize := by
    obtain ⟨k, hk⟩ := h.aligned
    simp only [pageSize] at *
    omega
  have hv32 : v < 2 ^ 32 := by
    simp only [identityBytes] at hwindow
    omega
  have hround : v / pageSize * pageSize < 2 ^ 32 := (Nat.div_mul_le_self _ _).trans_lt hv32
  have hlow : v &&& 0xFFF = v % 4096 := and_mask_eq_mod v 12
  rw [h.refines.pagingTranslate_eq hv32, h.identity _ hpage, hlow, Option.elim, frameOf_eq hround,
    Nat.mul_div_cancel _ (by decide), Nat.mul_comm]
  exact (frame_or_flags _ (Nat.mod_lt _ (by decide))).trans (Nat.div_add_mod v 4096)

end PageInv

/-- **The identity map is established and never lost.** For every memory map and every state of the
frame allocator after `pmm_init`: if `paging_init` enables paging, then directory and tables lie
below `identity_end`, exactly the addresses below it are mapped, each to itself, and the counters
say so; and in every state of the kernel reached from there, the addresses below `identity_end`
still translate to themselves and directory and tables still lie below it. -/
theorem identity_map_kept {img : KernelImage} {mm : MemMap} {ram : Bitmap} {fs : FrameState}
    (hfs : FrameReach img mm ram fs) (m : Mem) (hen : (bootPaging mm fs m).enabled ≠ 0) :
    (TablesBelow (bootPaging mm fs m) ∧ IdentityMapped (bootPaging mm fs m) ∧
      (∀ v, (bootPaging mm fs m).identityEnd ≤ v → v < 2 ^ 32 →
        (bootPaging mm fs m).pagingTranslate v = pageUnmapped) ∧
      (bootPaging mm fs m).mappedPages = (bootPaging mm fs m).identityEnd / 4096 ∧
      (bootPaging mm fs m).tableCount =
        ((bootPaging mm fs m).identityEnd + (2 ^ 22 - 1)) / 2 ^ 22) ∧
    ∀ q, KernelReach (bootPaging mm fs m) q →
      q.heap.env.identityEnd = (bootPaging mm fs m).identityEnd ∧
      IdentityMapped q.heap.env ∧ TablesBelow q.heap.env := by
  have hvm := vmInv_boot hfs hen
  obtain ⟨tabs, hinv⟩ := hvm.reach.inv
  refine ⟨⟨hinv.tablesBelow, hinv.identityMapped, fun v hv hv' => ?_, ?_, ?_⟩, fun q hq => ?_⟩
  · refine (hinv.refines.pagingTranslate_eq_unmapped hv').2 (if_neg ?_)
    exact not_lt.2 (Nat.div_le_div_right hv)
  · have hwindow := hinv.window
    refine hinv.refines.mappedPages.trans (domSize_of_lt ?_ fun page _ => identityPages_isSome)
    simp only [identityBytes, pageSize] at *
    omega
  · obtain ⟨s, tabs', e, hmap, -, -, ⟨k, hk⟩, hle⟩ := bootPaging_spec hfs hen
    have hend : (bootPaging mm fs m).identityEnd = s.identityEnd := by rw [e]
    have hcount : (bootPaging mm fs m).tableCount = s.tableCount := by rw [e]
    rw [hend, hcount]
    refine hmap.map.tableCount.trans (domSize_of_lt ?_ fun i _ => ?_)
    · simp only [identityBytes] at hle
      omega
    · rw [hmap.tabs_iff]
      simp only [pageSize] at hk ⊢
      omega
  · obtain ⟨pages, held, hq⟩ := (hq.inv hfs hen).vm
    obtain ⟨tabs', hinv'⟩ := hq.reach.inv
    exact ⟨hq.same.2.2.1, hinv'.identityMapped, hinv'.tablesBelow⟩

/-- The kernel of the small machine after `heap_init`. -/
@[irreducible] def smallHeap : HeapState Paging :=
  after (heapAct kernelBacking) heapInit (.zeroed (fun _ => 0) smallPaging)

theorem run_smallHeap :
    run (heapAct kernelBacking) heapInit (.zeroed (fun _ => 0) smallPaging) = some
      ((), smallHeap) := by
  unfold smallHeap
  exact run_eq_after _ (by decide +kernel)

theorem kernelReach_small : KernelReach smallPaging ⟨smallHeap, ∅⟩ :=
  .start ⟨⟨_, run_smallHeap⟩, rfl⟩

/-- On the small machine, after `map 0xD0000000`. -/
theorem identity_map_kept_small : IdentityMapped smallPaging ∧
    ∃ q, KernelReach smallPaging q ∧ q.heap.env.pagingTranslate 0xD0000000 ≠ pageUnmapped ∧
      IdentityMapped q.heap.env ∧ TablesBelow q.heap.env := by
  obtain ⟨⟨-, hid, -⟩, hrun⟩ :=
    identity_map_kept (FrameReach.init smallImage smallMap fun _ => 0#32)
    (fun _ => 0) smallPaging_enabled
  have hreach := Reach.next kernelReach_small (.map _ (show 0xD0000000 < 2 ^ 32 by decide))
  obtain ⟨-, hkept, hbelow⟩ := hrun _ hreach
  exact ⟨hid, _, hreach, by decide +kernel, hkept, hbelow⟩

end JarvisOS
