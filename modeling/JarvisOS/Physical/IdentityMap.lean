import JarvisOS.Physical.PageMap

/-!
# The identity map

`paging_init` takes a frame for the directory and maps the pages below `identity_end` to
themselves. `BootMap` is what holds after some of these pages: the tables represent the identity on
them, there is a table for each directory index reached, and every table lies above the directory,
because the allocator hands out the least free frame. With the first table below `identity_end` the
directory is below it too (`pagingInit_spec`).
-/

namespace JarvisOS

open Foundations

/-- The identity on the first `n` pages. -/
def identityPages (n : ℕ) : ℕ → Option ℕ := fun page =>
  if page < n then some (page * pageSize) else none

theorem identityPages_isSome {n page : ℕ} : (identityPages n page).isSome ↔ page < n := by
  unfold identityPages
  split_ifs with h <;> simp [h]

theorem update_identityPages (n : ℕ) :
    Function.update (identityPages n) n (some (n * pageSize)) = identityPages (n + 1) := by
  funext page
  unfold identityPages
  by_cases h : page = n
  · subst h
    rw [Function.update_self, if_pos (Nat.lt_succ_self _)]
  · rw [Function.update_of_ne h]
    exact if_congr (by omega) rfl rfl

/-- The window is whole pages of memory that exists. -/
theorem identityWindow_spec (highest : ℕ) (h0 : frameSize ≤ highest) (h : highest < 2 ^ 32) :
    pageSize ∣ Paging.identityWindow highest ∧ 0 < Paging.identityWindow highest ∧
      Paging.identityWindow highest ≤ identityBytes ∧
      Paging.identityWindow highest / pageSize ≤ highest / frameSize := by
  have hmask : highest &&& lnot32 (pageSize - 1) = highest / 2 ^ 12 * 2 ^ 12 :=
    and_lnot32 (k := 12) (by decide) h
  unfold Paging.identityWindow
  simp only [pageSize, identityBytes, frameSize] at *
  rw [hmask]
  split_ifs <;> omega

namespace Paging

/-- The first `n` pages have been mapped to themselves, starting from the allocator `p₀`. -/
structure BootMap (p₀ : Pmm) (s : Paging) (tabs : ℕ → Option ℕ) (n : ℕ) : Prop where
  map : s.PageMap tabs (identityPages n)
  tabs_iff : ∀ i, (tabs i).isSome ↔ i * 1024 < n
  above : ∀ i t, tabs i = some t → s.pageDirectory < t
  free : ∀ g < s.pmm.totalFrames, s.pmm.frameTest g = false → s.pageDirectory < 4096 * g
  total : s.pmm.totalFrames = p₀.totalFrames
  keeps : ∀ a, p₀.InUse a → s.pmm.InUse a
  fresh : ∀ a, a = s.pageDirectory ∨ (∃ i, tabs i = some a) → ¬ p₀.InUse a

namespace BootMap

variable {p₀ : Pmm} {s t : Paging} {tabs tabs' : ℕ → Option ℕ} {n : ℕ}

/-- One page more. -/
theorem step (h : BootMap p₀ s tabs n) (hboot : SameBoot s t)
    (hmap : t.PageMap tabs' (identityPages (n + 1)))
    (ht : PageMap.Installed s tabs (n * pageSize) t.pmm tabs') : BootMap p₀ t tabs' (n + 1) := by
  have hdi : dirIndex (n * pageSize) = n / 1024 := by
    rw [dirIndex_eq, Nat.mul_div_cancel _ (by decide)]
  obtain ⟨hdir, -⟩ := hboot
  rcases t with ⟨ram, pmm, _⟩
  subst hdir
  simp only at ht ⊢
  cases ht with
  | found hsome =>
    rw [hdi, h.tabs_iff] at hsome
    refine ⟨hmap, fun i => ?_, h.above, h.free, h.total, h.keeps, h.fresh⟩
    rw [h.tabs_iff]
    omega
  | @created f hnone h0 hf hlow =>
    rw [hdi] at hnone hmap ⊢
    have hge : ¬ n / 1024 * 1024 < n := by
      rw [← h.tabs_iff, hnone]
      simp
    have hfree := h.free f hf.1.1 hf.1.2
    refine ⟨hmap, fun i => ?_, fun i t hi => ?_, fun g hg hgf => ?_,
      (s.pmm.frameMarkUsed_shape f).2.1.trans h.total, fun a ha => (h.keeps a ha).frameMarkUsed f,
      fun a ha => ?_⟩
    · by_cases hi : i = n / 1024
      · subst hi
        rw [Function.update_self]
        simp only [Option.isSome_some, true_iff]
        omega
      · rw [Function.update_of_ne hi, h.tabs_iff]
        omega
    · by_cases hin : i = n / 1024
      · subst hin
        rw [Function.update_self] at hi
        exact Option.some.inj hi ▸ hfree
      · rw [Function.update_of_ne hin] at hi
        exact h.above i t hi
    · rw [Pmm.frameTest_frameMarkUsed, Bool.or_eq_false_iff] at hgf
      exact h.free g ((s.pmm.frameMarkUsed_shape f).2.1 ▸ hg) hgf.1
    · by_cases hnew : a = 4096 * f
      · exact fun hu => (h.keeps a hu).ne_of_free hf.1.2 hnew
      · refine h.fresh a (ha.imp_right fun ⟨i, hi⟩ => ⟨i, ?_⟩)
        by_cases hin : i = n / 1024
        · subst hin
          rw [Function.update_self] at hi
          exact absurd (Option.some.inj hi).symm hnew
        · rwa [Function.update_of_ne hin] at hi

end BootMap

/-- **The loop of `paging_init`** maps the remaining pages, or stops at one whose table cannot be
created. A property of the allocator and the tables that every new table keeps holds throughout. -/
theorem identityLoop_spec {p₀ : Pmm} {P : Pmm → (ℕ → Option ℕ) → Prop}
    (hP : ∀ {s : Paging} {tabs tabs' : ℕ → Option ℕ} {v : ℕ} {pmm : Pmm}, P s.pmm tabs →
      PageMap.Installed s tabs v pmm tabs' → P pmm tabs')
    (pages : ℕ) {n : ℕ} {s : Paging} {tabs : ℕ → Option ℕ} (h : BootMap p₀ s tabs n)
    (hp : P s.pmm tabs) (hn : n + pages ≤ p₀.totalFrames) :
    SameBoot s (identityLoop pages (n * pageSize) s).2 ∧ ∃ n' tabs',
      BootMap p₀ (identityLoop pages (n * pageSize) s).2 tabs' n' ∧
      P (identityLoop pages (n * pageSize) s).2.pmm tabs' ∧
      ((identityLoop pages (n * pageSize) s).1 = true ∧ n' = n + pages ∨
        (identityLoop pages (n * pageSize) s).1 = false ∧ n' < n + pages ∧
          tabs' (n' / 1024) = none ∧
            PageMap.NoTableFrame (identityLoop pages (n * pageSize) s).2) := by
  induction pages generalizing n s tabs with
  | zero => exact ⟨SameBoot.refl s, n, tabs, h, hp, Or.inl ⟨rfl, rfl⟩⟩
  | succ pages ih =>
    have hsmall := h.map.sound.sized.total_lt
    have htotal := h.total
    have hend : n * pageSize + pageSize < 2 ^ 32 := by
      simp only [pageSize]
      omega
    have hv : n * pageSize < 2 ^ 32 := (Nat.le_add_right _ _).trans_lt hend
    have hdiv : n * pageSize / pageSize = n := Nat.mul_div_cancel _ (by decide)
    simp only [identityLoop]
    rcases h.map.pagingMap_spec hv (show n * pageSize / pageSize < s.pmm.totalFrames by omega)
        pageWrite with
      ⟨e, hnone, hno⟩ | ⟨t, tabs', e, hmap, hinst, hboot⟩
    · rw [dirIndex_eq, hdiv] at hnone
      rw [e, if_pos rfl]
      exact ⟨SameBoot.refl s, n, tabs, h, hp, Or.inr ⟨rfl, by omega, hnone, hno⟩⟩
    · rw [hdiv, update_identityPages] at hmap
      have hnext := h.step hboot hmap hinst
      have haddr : u32 (n * pageSize + pageSize) = (n + 1) * pageSize := by
        rw [Nat.add_mul, Nat.one_mul, u32_of_lt hend]
      obtain ⟨hboot', n', tabs', hdone⟩ := ih hnext (hP hp hinst) (by omega)
      rw [e, if_neg Nat.one_ne_zero, haddr]
      rw [Nat.add_right_comm, Nat.add_assoc n pages 1] at hdone
      exact ⟨hboot.trans hboot', n', tabs', hdone⟩

/-- The directory before any page is mapped. -/
theorem bootMap_start {p₀ : Pmm} (hp : p₀.Sound) (ram : Mem) {f w : ℕ} (h0 : f ≠ 0)
    (hf : IsLeast {g | g < p₀.totalFrames ∧ p₀.frameTest g = false} f) :
    BootMap p₀ ⟨ram.memset (4096 * f) 0 pageSize, p₀.frameMarkUsed f, 4096 * f, 4096 * f, w,
      0, 0, 0⟩
      (fun _ => none) 0 := by
  have hshape := (p₀.frameMarkUsed_shape f).2.1
  refine ⟨⟨hp.frameMarkUsed f, ?_, Pmm.inUse_frameMarkUsed h0 hf.1.1, fun _ _ h => (nomatch h),
    fun page p h => ?_, ?_, ?_⟩, fun i => ?_, fun _ _ h => (nomatch h), fun g hg hgf => ?_, hshape,
    fun a ha => ha.frameMarkUsed f, ?_⟩
  · have hempty : identityPages 0 = fun _ => none :=
      funext fun page => if_neg (Nat.not_lt_zero page)
    rw [hempty]
    refine TableFormat.Tables.start fun i hi => Mem.read32_memset_zero _ (Nat.le_add_right _ _) ?_
    have : i < 1024 := hi
    simp only [pageSize]
    omega
  · have := identityPages_isSome.1 (Option.isSome_iff_exists.2 ⟨p, h⟩)
    omega
  · exact (domSize_of_lt (Nat.zero_le _) (by simp)).symm
  · exact (domSize_of_lt (Nat.zero_le _) fun i _ => identityPages_isSome).symm
  · simp
  · rw [Pmm.frameTest_frameMarkUsed, Bool.or_eq_false_iff] at hgf
    have hle := hf.2 ⟨hshape ▸ hg, hgf.1⟩
    have hne : g ≠ f := fun e => by
      have := hgf.2
      simp [e, hf.1.1] at this
    simp only
    omega
  · rintro a (rfl | ⟨i, hi⟩) hu
    · exact hu.ne_of_free hf.1.2 rfl
    · cases hi

/-- **`paging_init`**: no frame is free; or the pages below `identity_end` are mapped to themselves
and no others, with directory and tables in frames that were free; or the mapping stops at a page
whose table cannot be created. A property of the directory, the allocator and the tables that every
new table keeps holds at the end. -/
theorem pagingInit_cases {p₀ : Pmm} (hp : p₀.Sound) {P : ℕ → Pmm → (ℕ → Option ℕ) → Prop}
    (hstart : ∀ f, f ≠ 0 → IsLeast {g | g < p₀.totalFrames ∧ p₀.frameTest g = false} f →
      P (4096 * f) (p₀.frameMarkUsed f) fun _ => none)
    (hP : ∀ {d : ℕ} {s : Paging} {tabs tabs' : ℕ → Option ℕ} {v : ℕ} {pmm : Pmm}, P d s.pmm tabs →
      PageMap.Installed s tabs v pmm tabs' → P d pmm tabs')
    {highest : ℕ} (hlt : highest < 2 ^ 32) (htotal : p₀.totalFrames = highest / frameSize)
      (ram : Mem) :
    ((∀ f < p₀.totalFrames, p₀.frameTest f = true) ∧
      ((zeroed ram p₀).pagingInit highest).2.pmm = p₀ ∧
      ((zeroed ram p₀).pagingInit highest).2.enabled = 0) ∨
    ∃ s tabs n, BootMap p₀ s tabs n ∧ P s.pageDirectory s.pmm tabs ∧
      s.identityEnd = identityWindow highest ∧ pageSize ∣ s.identityEnd ∧
      s.identityEnd ≤ identityBytes ∧
      ((zeroed ram p₀).pagingInit highest = ([], { s with enabled := 1 }) ∧
          n = s.identityEnd / pageSize ∧ s.pageDirectory < s.identityEnd ∨
        ((zeroed ram p₀).pagingInit highest).2 = s ∧ s.enabled = 0 ∧
          n < s.identityEnd / pageSize ∧ tabs (n / 1024) = none ∧ PageMap.NoTableFrame s) := by
  unfold pagingInit
  rcases hp.pmmAllocFrame_spec with ⟨e, hall⟩ | ⟨f, h0, hf, e⟩
  · simp only [zeroed, e]
    exact Or.inl ⟨hall, rfl, rfl⟩
  simp only [zeroed, e]
  rw [if_neg (by omega)]
  obtain ⟨hdvd, hpos, hle, hwindow⟩ := identityWindow_spec highest
    (by have := hf.1.1; simp only [frameSize] at *; omega) hlt
  set w := identityWindow highest
  obtain ⟨hboot, n, tabs, hmap, hprop, hdone⟩ := identityLoop_spec (P := P (4096 * f)) hP
    (w / pageSize) (bootMap_start (w := w) hp ram h0 hf) (hstart f h0 hf) (by rw [htotal]; omega)
  rw [Nat.zero_mul, Nat.zero_add] at hdone
  rw [Nat.zero_mul] at hboot hmap hprop
  set r := identityLoop (w / pageSize) 0 _
  obtain ⟨hdir, -, hend, hoff⟩ := hboot
  have hdir : r.2.pageDirectory = 4096 * f := hdir
  have hend : r.2.identityEnd = w := hend
  refine Or.inr ⟨r.2, tabs, n, hmap, hdir.symm ▸ hprop, hend, hend.symm ▸ hdvd, hend.symm ▸ hle, ?_⟩
  rcases hdone with ⟨hok, rfl⟩ | ⟨hok, hlt, hnone, hno⟩
  · obtain ⟨t, ht⟩ := Option.isSome_iff_exists.1 ((hmap.tabs_iff 0).2
      (by rw [Nat.zero_mul]; exact Nat.div_pos (Nat.le_of_dvd hpos hdvd) (by decide)))
    exact Or.inl ⟨if_pos hok, by rw [hend], (hmap.above 0 t ht).trans (hmap.map.table 0 t ht).2⟩
  · rw [hok]
    exact Or.inr ⟨rfl, hoff, hend.symm ▸ hlt, hnone, hno⟩

/-- If `paging_init` enables paging, every page below `identity_end` is mapped to itself and no
other is, and directory and tables lie below `identity_end`, in frames that were free. -/
theorem pagingInit_spec {p₀ : Pmm} (hp : p₀.Sound) {highest : ℕ} (hlt : highest < 2 ^ 32)
    (htotal : p₀.totalFrames = highest / frameSize) (ram : Mem)
    (hen : ((zeroed ram p₀).pagingInit highest).2.enabled ≠ 0) :
    ∃ s tabs, (zeroed ram p₀).pagingInit highest = ([], { s with enabled := 1 }) ∧
      BootMap p₀ s tabs (s.identityEnd / pageSize) ∧ s.identityEnd = identityWindow highest ∧
      s.pageDirectory < s.identityEnd ∧ pageSize ∣ s.identityEnd ∧
        s.identityEnd ≤ identityBytes := by
  rcases pagingInit_cases hp (P := fun _ _ _ => True) (fun _ _ _ => trivial)
    (fun _ _ => trivial) hlt
      htotal ram with
    ⟨-, -, h0⟩ | ⟨s, tabs, n, hmap, -, hend, hdvd, hle, ⟨e, rfl, hdir⟩ | ⟨rfl, h0, -⟩⟩
  · exact absurd h0 hen
  · exact ⟨s, tabs, e, hmap, hend, hdir, hdvd, hle⟩
  · exact absurd h0 hen

end Paging

end JarvisOS
