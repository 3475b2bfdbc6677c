import JarvisOS.Heap.Ceiling

/-!
# Stray pointers and the magic number

`kfree` recognises a block by the word `BLOCK_MAGIC` sixteen bytes below the pointer and by a zero
word four bytes below it. Headers swallowed by `coalesce` keep their magic number, so the test is
sound only as long as the word twelve bytes after every stale one stays nonzero. `MagicSound` says
that it does; the heap code keeps it so, an owner can break it by writing a zero there.
-/

namespace JarvisOS

open Foundations HeapOp Prog

variable {σ : Type} {B : Backing σ} {m m' : Mem} {l l' : List Seg}

/-! ## Headers exclude other patterns -/

theorem magic_bytes {a : ℕ} (h : m.read32 a = blockMagic) : (m a).toNat = 0x56 ∧
    (m (a + 1)).toNat = 0x52 ∧ (m (a + 2)).toNat = 0x41 ∧ (m (a + 3)).toNat = 0x4A := by
  have h0 := m.byte_of_read32 (a := a) (i := 0) (by decide)
  have h1 := m.byte_of_read32 (a := a) (i := 1) (by decide)
  have h2 := m.byte_of_read32 (a := a) (i := 2) (by decide)
  have h3 := m.byte_of_read32 (a := a) (i := 3) (by decide)
  rw [h] at h0 h1 h2 h3
  exact ⟨h0, h1, h2, h3⟩

/-- **No magic number overlaps a header** except the header's own. -/
theorem IsHeader.eq_of_magic {a b n : ℕ} {x : Seg} (hx : IsHeader m b x n) (hs : x.size < 2 ^ 24)
    (hn : n = 0 ∨ 0xC0 * 2 ^ 24 ≤ n ∧ n < 0xC1 * 2 ^ 24) (ha : m.read32 a = blockMagic)
    (hlo : b < a + 4) (hhi : a < b + headerSize) : a = b := by
  rw [headerSize_eq] at hhi
  obtain ⟨a0, a1, a2, a3⟩ := magic_bytes ha
  obtain ⟨b0, b1, b2, b3⟩ := magic_bytes hx.magic
  -- the top bytes of the size and of the link, and the bytes of the flag
  have b7 : (m (b + 4 + 3)).toNat = 0 := by
    rw [m.byte_of_read32 (by decide), hx.size]
    omega
  have b11 : (m (b + 8 + 3)).toNat = 0 ∨ (m (b + 8 + 3)).toNat = 0xC0 := by
    rw [m.byte_of_read32 (by decide), hx.next]
    omega
  have hfree : m.read32 (b + 12) ≤ 1 := by
    rw [hx.free]
    split_ifs <;> decide
  have b12 := m.byte_of_read32 (a := b + 12) (i := 0) (by decide)
  have b13 := m.byte_of_read32 (a := b + 12) (i := 1) (by decide)
  have b14 := m.byte_of_read32 (a := b + 12) (i := 2) (by decide)
  have b15 := m.byte_of_read32 (a := b + 12) (i := 3) (by decide)
  simp only [Nat.add_assoc, Nat.reduceAdd] at b7 b11 b12 b13 b14 b15
  by_cases hab : a < b
  · obtain ⟨k, rfl⟩ := Nat.exists_eq_add_of_lt hab
    have hk : k < 3 := by omega
    interval_cases k <;> simp only [Nat.add_assoc, Nat.reduceAdd] at * <;> omega
  · obtain ⟨k, rfl⟩ := Nat.exists_eq_add_of_le (Nat.not_lt.1 hab)
    have hk : k < 16 := by omega
    interval_cases k <;> simp only [Nat.add_assoc, Nat.reduceAdd, Nat.add_zero] at * <;> omega

theorem Holds.apart_of_magic {a b : ℕ} (h : Holds m heapStart l 0)
    (hspan : Seg.span headerSize l ≤ heapMax) (hb : b ∈ Seg.starts headerSize heapStart l)
    (ha : m.read32 a = blockMagic) (hne : a ≠ b) : a + 4 ≤ b ∨ b + headerSize ≤ a := by
  obtain ⟨pre, y, post, rfl, rfl, hy⟩ := h.header_of_mem hb
  by_contra hover
  refine hne (hy.eq_of_magic ?_ ?_ ha (by omega) (by omega))
  · simp only [Seg.span_append, Seg.span_cons, heapMax] at hspan
    omega
  · cases post with
    | nil => exact Or.inl rfl
    | cons z post =>
      simp only [Seg.span_append, Seg.span_cons, heapMax, heapStart, headerSize, linkTo_cons] at *
      omega

/-! ## Sound magic numbers -/

/-- Every magic number below `brk` is aligned, and belongs to a block of the list or is followed,
twelve bytes later, by a nonzero word. -/
def MagicSound (m : Mem) (brk : ℕ) (l : List Seg) : Prop :=
  ∀ a, heapStart ≤ a → a + 4 ≤ brk → m.read32 a = blockMagic → 8 ∣ a ∧
    (a ∈ Seg.starts headerSize heapStart l ∨ brk < a + headerSize ∨ m.read32 (a + 12) ≠ 0)

/-- This depends on the bytes below the break only. -/
theorem MagicSound.congr {brk : ℕ} (h : MagicSound m brk l) (hm : ∀ y < brk, m' y = m y) :
    MagicSound m' brk l := by
  intro a h1 h2 ha
  rw [Mem.read32_congr fun y _ _ => hm y (by omega)] at ha
  obtain ⟨h8, hin | hend | hword⟩ := h a h1 h2 ha
  · exact ⟨h8, Or.inl hin⟩
  · exact ⟨h8, Or.inr (Or.inl hend)⟩
  · refine ⟨h8, or_iff_not_imp_left.2 fun _ => or_iff_not_imp_left.2 fun hend => ?_⟩
    rwa [Mem.read32_congr fun y _ _ => hm y (by rw [headerSize_eq] at hend; omega)]

/-- A word between two aligned headers' flags is a size, or lies outside all headers. -/
theorem Holds.word_ne_zero {a brk : ℕ} (h : Holds m' heapStart l' 0)
    (hsizes : ∀ x ∈ l', PayloadSize x.size) (h8 : 8 ∣ a)
    (ha : a ∉ Seg.starts headerSize heapStart l') (hbrk : a + headerSize ≤ brk)
    (hframe : ∀ y < brk, (∀ b ∈ Seg.starts headerSize heapStart l', y < b ∨ b + headerSize ≤ y) →
      m' y = m y) (hword : m.read32 (a + 12) ≠ 0) : m'.read32 (a + 12) ≠ 0 := by
  rw [headerSize_eq] at hbrk
  by_cases hin : a + 8 ∈ Seg.starts headerSize heapStart l'
  · obtain ⟨pre, y, post, rfl, hb, hy⟩ := h.header_of_mem hin
    have hsize := (hsizes y (by simp)).2
    rw [show a + 12 = a + 8 + 4 by omega, hy.size]
    omega
  · rwa [Mem.read32_congr fun y h1 h2 => hframe y (by omega) fun b hb => ?_]
    have hb8 := Holds.aligned (by decide) hsizes b hb
    have hne : b ≠ a := fun e => ha (e ▸ hb)
    have hne' : b ≠ a + 8 := fun e => hin (e ▸ hb)
    rw [headerSize_eq]
    omega

/-- **A step of the heap keeps the magic numbers sound** if it writes headers of the new list only,
and leaves a nonzero flag in those it drops; what it maps starts with a header and is free of magic
numbers. -/
theorem MagicSound.step {brk brk' : ℕ} (h : MagicSound m brk l) (hholds : Holds m' heapStart l' 0)
    (htiles : heapStart + Seg.span headerSize l' = brk') (hceil : brk' ≤ heapStart + heapMax)
    (hsizes : ∀ x ∈ l', PayloadSize x.size) (h8 : 8 ∣ brk)
    (hgrow : brk = brk' ∨ brk ∈ Seg.starts headerSize heapStart l')
    (hframe : ∀ y < brk, (∀ b ∈ Seg.starts headerSize heapStart l', y < b ∨ b + headerSize ≤ y) →
      m' y = m y)
    (hfresh : ∀ a, brk ≤ a → a + 4 ≤ brk' →
      (∀ b ∈ Seg.starts headerSize heapStart l', a + 4 ≤ b ∨ b + headerSize ≤ a) →
      m'.read32 a ≠ blockMagic)
    (hstale : ∀ b ∈ Seg.starts headerSize heapStart l, b ∉ Seg.starts headerSize heapStart l' →
      m'.read32 (b + 12) ≠ 0) : MagicSound m' brk' l' := by
  intro a h1 h2 ha
  by_cases hin : a ∈ Seg.starts headerSize heapStart l'
  · exact ⟨Holds.aligned (by decide) hsizes a hin, Or.inl hin⟩
  have hapart : ∀ b ∈ Seg.starts headerSize heapStart l', a + 4 ≤ b ∨ b + headerSize ≤ a :=
    fun b hb => hholds.apart_of_magic (by omega) hb ha fun e => hin (e ▸ hb)
  have hold : a + 4 ≤ brk := by
    by_contra hover
    by_cases hge : brk ≤ a
    · exact hfresh a hge h2 hapart ha
    · rcases hgrow with rfl | hb
      · exact hover h2
      · have := hapart brk hb
        omega
  rw [Mem.read32_congr fun y _ _ => hframe y (by omega) fun b hb => by
    have := hapart b hb
    omega] at ha
  obtain ⟨ha8, hcase⟩ := h a h1 hold ha
  refine ⟨ha8, Or.inr (or_iff_not_imp_left.2 fun hend => ?_)⟩
  by_cases hlast : brk < a + headerSize
  · -- the word lies in what was mapped, and is the size of the block made of it
    have e : brk = a + 8 := by
      rw [headerSize_eq] at hlast
      omega
    have hb := hgrow.resolve_left fun e' => hend (e' ▸ hlast)
    obtain ⟨pre, y, post, rfl, -, hy⟩ := hholds.header_of_mem hb
    have hsize := (hsizes y (by simp)).2
    rw [show a + 12 = brk + 4 by omega, hy.size]
    omega
  · rcases hcase with hs | hlast' | hword
    · exact hstale a hs hin
    · exact absurd hlast' hlast
    · exact hholds.word_ne_zero hsizes ha8 hin (Nat.not_lt.1 hlast) hframe hword

theorem LinksOnly.headersOnly {hs : List ℕ} (h : LinksOnly hs m m') : HeadersOnly hs m m' :=
  fun y hy => h y fun b hb => by
    have := hy b hb
    rw [headerSize_eq] at this
    omega

variable {s t : HeapState σ}

theorem Tiled.eight_dvd_brk (h : Tiled s l) : 8 ∣ s.brk := dvd_trans (by decide) h.page

/-- Merging drops headers of free blocks, whose flag stays set. -/
theorem MagicSound.merge (h : MagicSound m t.brk l) (hl : Holds m heapStart l 0)
    (ht : Tiled t (Seg.merge headerSize l)) (hlinks : LinksOnly (Seg.starts headerSize heapStart
      (Seg.merge headerSize l)) m t.mem) : MagicSound t.mem t.brk (Seg.merge headerSize l) := by
  refine h.step ht.headers ht.tiles ht.ceiling ht.sizes ht.eight_dvd_brk (Or.inl rfl)
    (fun y _ hy => hlinks.headersOnly y hy) (fun a h1 h2 => by omega) fun b hb hm => ?_
  obtain ⟨pre, y, post, rfl, rfl, hy⟩ := Seg.free_of_not_mem_starts_merge headerSize hb hm
  obtain ⟨-, hhead, -⟩ := Holds.append_iff.1 hl
  rw [Mem.read32_congr fun z h1 h2 => hlinks z fun c hc => ?_, hhead.free, if_pos hy]
  · exact Nat.one_ne_zero
  · have hne : heapStart + Seg.span headerSize pre ≠ c := fun e => hm (e ▸ hc)
    have := Seg.starts_apart headerSize hb (Seg.starts_merge_subset headerSize hc) hne
    have := headerSize_eq
    omega

theorem Taken.magicSound {size p : ℕ} {pre post : List Seg} {x : Seg}
    (ht : Taken size s pre x post p t) (h : MagicSound s.mem s.brk (pre ++ x :: post))
    (htiled : Tiled t (pre ++ Seg.carve headerSize minSplit size x ++ post)) :
    MagicSound t.mem t.brk (pre ++ Seg.carve headerSize minSplit size x ++ post) := by
  have hbrk : t.brk = s.brk := by rw [ht.state]; rfl
  refine (hbrk.symm ▸ h : MagicSound s.mem t.brk _).step htiled.headers htiled.tiles htiled.ceiling
    htiled.sizes htiled.eight_dvd_brk (Or.inl rfl) (fun y _ hy => ht.frame y hy)
    (fun a h1 h2 => by omega) fun b hb hm => absurd (Seg.starts_subset_carve headerSize hb) hm

/-- Memory mapped for the heap holds no magic number. -/
def CleanMapped (m : Mem) (lo hi : ℕ) : Prop := ∀ a, lo ≤ a → a + 4 ≤ hi → m.read32 a ≠ blockMagic

theorem Extended.magicSound {pages : ℕ} (ht : Extended B s l pages m t) (htiled : Tiled s l)
    (h : MagicSound s.mem s.brk l)
    (hclean : CleanMapped (mapPages B pages s.brk s).2.mem s.brk t.brk) :
    MagicSound t.mem t.brk (Seg.merge headerSize (l ++ [freshBlock pages])) := by
  have hwl := window_lt
  have hceil := ht.ceiling
  have hbrk : t.brk = s.brk + pages * pageSize := by rw [ht.state]
  have htiled' := ht.tiled htiled
  have hsizes : ∀ x ∈ l ++ [freshBlock pages], PayloadSize x.size := by
    have := ht.room
    simp only [List.mem_append, List.mem_singleton]
    rintro x (hx | rfl)
    · exact htiled.sizes x hx
    · simp only [PayloadSize, freshBlock, headerSize, pageSize]
      omega
  have hgranted : s.brk + (mapPages B pages s.brk s).1 * pageSize ≤ 2 ^ 32 := by
    rw [ht.granted]
    omega
  have hmapped : MagicSound (mapPages B pages s.brk s).2.mem s.brk l :=
    h.congr fun y hy => mapPages_mem_below htiled hgranted hy
  have hlinked : MagicSound m t.brk (l ++ [freshBlock pages]) := by
    refine hmapped.step ht.linked ?_ (hbrk ▸ hceil) hsizes htiled.eight_dvd_brk (Or.inr ?_)
      (fun y _ hy => ht.header y hy) (fun a h1 h2 hapart ha => hclean a h1 h2 ?_) fun b hb hm => ?_
    · rw [Seg.span_append, span_freshBlock ht.room, ← Nat.add_assoc, htiled.tiles, hbrk]
    · rw [Seg.starts_append, htiled.tiles]
      exact List.mem_append_right _ List.mem_cons_self
    · rw [← ha]
      refine (Mem.read32_congr fun y h3 h4 => ht.header y fun b hb => ?_).symm
      have := hapart b hb
      omega
    · rw [Seg.starts_append] at hm
      exact absurd (List.mem_append_left _ hb) hm
  exact hlinked.merge ht.linked htiled' ht.links

theorem Released.magicSound {pre post : List Seg} {x : Seg} (ht : Released s pre x post m t)
    (htiled : Tiled s (pre ++ x :: post)) (h : MagicSound s.mem s.brk (pre ++ x :: post)) :
    MagicSound t.mem t.brk (Seg.merge headerSize (pre ++ ⟨x.size, true⟩ :: post)) := by
  have htiled' := ht.tiled htiled
  have hbrk : t.brk = s.brk := by rw [ht.state]; rfl
  have hstarts : Seg.starts headerSize heapStart (pre ++ ⟨x.size, true⟩ :: post) =
      Seg.starts headerSize heapStart (pre ++ x :: post) := by
    rw [Seg.starts_append, Seg.starts_append]
    rfl
  have htiles := htiled.tiles
  refine MagicSound.merge ?_ ht.freed htiled' ht.links
  refine (hbrk.symm ▸ h : MagicSound s.mem t.brk _).step ht.freed ?_ htiled'.ceiling ?_
    htiled'.eight_dvd_brk (Or.inl rfl) (fun y _ hy => ht.header.mono (fun b hb => ?_) y hy)
    (fun a h1 h2 => by omega) fun b hb hm => absurd (hstarts ▸ hb) hm
  · simp only [Seg.span_append, Seg.span_cons] at htiles ⊢
    exact htiles.trans hbrk.symm
  · simp only [List.mem_append, List.mem_cons]
    rintro y (hy | rfl | hy)
    · exact htiled.sizes y (by simp [hy])
    · exact htiled.sizes x (by simp)
    · exact htiled.sizes y (by simp [hy])
  · rw [List.mem_singleton.1 hb, Seg.starts_append]
    exact List.mem_append_right _ List.mem_cons_self

/-- **An allocation keeps the magic numbers sound** when what it maps is clean. -/
theorem Allocated.magicSound {size p : ℕ} (ha : Allocated B size s l p t l') (htiled : Tiled s l)
    (hsize : PayloadSize size) (h : MagicSound s.mem s.brk l)
    (hclean : t.brk ≠ s.brk →
      CleanMapped (mapPages B (growthPages size) s.brk s).2.mem s.brk t.brk) :
    MagicSound t.mem t.brk l' := by
  cases ha with
  | found ht => exact ht.magicSound h (ht.tiled htiled hsize)
  | @grown l pre post x p m u t hno hu hl ht =>
    have hutiled := hu.tiled htiled
    have hbrk : t.brk = u.brk := by rw [ht.state]; rfl
    have hgrown : u.brk = s.brk + growthPages size * pageSize := by rw [hu.state]
    have hsound := hu.magicSound htiled h (hbrk ▸ hclean (by
      have := hu.room
      simp only [pageSize] at hgrown
      omega))
    rw [hl] at hutiled hsound
    exact ht.magicSound hsound (ht.tiled hutiled hsize)
  | ceiling => exact h
  | refused _ _ _ hw =>
    have hbrk := (mapPages_spec (B := B) (growthPages size) s.brk s).1.2.1
    rw [hbrk]
    exact h.congr fun y hy => mapPages_mem_below htiled (hw.trans (by decide)) hy

/-! ## `kfree` of any pointer -/

theorem runs_rejectOutside (lo hi addr : ℕ) : ∃ out, Runs (heapAct B) (InWindow lo hi)
    (kfree.rejectOutside addr) s 0 { s with out := out } := by
  refine ⟨?out, ?run⟩
  case run =>
    rw [kfree.rejectOutside, runs_print, runs_printHex, runs_print]
    exact runs_ret

/-- A pointer whose header fails the test is rejected, and only the console changes. -/
theorem runs_kfree_rejected (hbrk : s.brk < 2 ^ 32) {ptr : ℕ} (hptr : ptr < 2 ^ 32)
    (hbad : heapStart + headerSize ≤ ptr → ptr < s.brk →
      s.mem.read32 (ptr - headerSize) ≠ blockMagic ∨ s.mem.read32 (ptr - headerSize + 12) ≠ 0) :
    ∃ out, Runs (heapAct B) (InWindow heapStart s.brk) (kfree ptr) s 0 { s with out := out } := by
  by_cases h0 : ptr = 0
  · exact ⟨s.out, by rw [kfree, if_pos h0]; exact runs_ret⟩
  by_cases hlow : ptr < heapStart + headerSize
  · obtain ⟨out, hrun⟩ := runs_rejectOutside (B := B) (s := s) heapStart s.brk ptr
    refine ⟨out, ?_⟩
    simp only [kfree]
    rwa [if_neg h0, if_pos hlow]
  by_cases hhigh : s.brk ≤ ptr
  · obtain ⟨out, hrun⟩ := runs_rejectOutside (B := B) (s := s) heapStart s.brk ptr
    refine ⟨out, ?_⟩
    simp only [kfree]
    rwa [if_neg h0, if_neg hlow, runs_getBrk, if_pos hhigh]
  have hroom : Room heapStart s.brk (ptr - headerSize) := ⟨by omega, by omega, hbrk⟩
  have hsub : sub32 ptr headerSize = ptr - headerSize := sub32_of_le (by omega) hptr
  by_cases hmagic : s.mem.read32 (ptr - headerSize) = blockMagic
  · have hfree := (hbad (by omega) (by omega)).resolve_left fun h => h hmagic
    refine ⟨?twice, ?run⟩
    case run =>
      simp only [kfree, hsub]
      rw [if_neg h0, if_neg hlow, runs_getBrk, if_neg hhigh, runs_getMagic hroom,
        if_neg fun h => h hmagic, runs_getFree_word hroom, if_pos hfree, runs_print, runs_printHex,
        runs_print]
      exact runs_ret
  · refine ⟨?noHeader, ?run⟩
    case run =>
      simp only [kfree, hsub]
      rw [if_neg h0, if_neg hlow, runs_getBrk, if_neg hhigh, runs_getMagic hroom, if_pos hmagic,
        runs_print, runs_printHex, runs_print]
      exact runs_ret

/-- **`kfree` of any pointer**, over sound magic numbers: it frees a live allocation, and rejects
everything else. -/
theorem runs_kfree_any {live : Set (ℕ × ℕ)} (h : HeapInv ⟨s, live⟩ l)
    (hm : MagicSound s.mem s.brk l) {ptr : ℕ} (hptr : ptr < 2 ^ 32) :
    ((∃ n, (ptr, n) ∈ live) ∧ ∃ pre x post m t, l = pre ++ x :: post ∧
      ptr = heapStart + Seg.span headerSize pre + headerSize ∧
      Runs (heapAct B) (InWindow heapStart s.brk) (kfree ptr) s 1 t ∧ Released s pre x post m t) ∨
    ((∀ n, (ptr, n) ∉ live) ∧ ∃ out,
      Runs (heapAct B) (InWindow heapStart s.brk) (kfree ptr) s 0 { s with out := out }) := by
  by_cases hlive : ∃ n, (ptr, n) ∈ live
  · obtain ⟨n, hn⟩ := hlive
    obtain ⟨pre, x, post, rfl, hx, -, rfl⟩ := h.exists_block hn
    obtain ⟨m, t, hrun, hr⟩ := runs_kfree (B := B) h.tiled hx
    exact Or.inl ⟨⟨n, hn⟩, pre, x, post, m, t, rfl, rfl, hrun, hr⟩
  · have htiled : Tiled s l := h.tiled
    refine Or.inr ⟨not_exists.1 hlive, runs_kfree_rejected htiled.brk_lt hptr fun hlo hhi => ?_⟩
    have hH := headerSize_eq
    by_contra hgood
    obtain ⟨hmagic, hzero⟩ := not_or.1 hgood
    obtain ⟨-, hin | hend | hword⟩ := hm (ptr - headerSize) (by omega) (by omega)
      (not_not.1 hmagic)
    · -- a block of the list with a zero flag is in use, and so live
      obtain ⟨pre, y, post, rfl, hb, hy⟩ := htiled.headers.header_of_mem hin
      have hused : y.free = false := by
        have hfree := hy.free
        rw [not_not.1 hzero] at hfree
        by_contra hf
        rw [if_pos (Bool.eq_true_of_not_eq_false hf)] at hfree
        exact absurd hfree Nat.zero_ne_one
      obtain ⟨n, hn⟩ := h.accounts.owned (ptr, y.size) (by
        rw [Seg.inUse_append, Seg.inUse_cons_used headerSize hused, ← hb,
          Nat.sub_add_cancel (by omega)]
        exact List.mem_append_right _ List.mem_cons_self)
      exact hlive ⟨n, hn⟩
    · omega
    · exact hzero hword

/-! ## Runs -/

/-- The heap right after `heap_init` over memory that holds no magic number. -/
def CleanStarted (B : Backing σ) (p : HeapSystem σ) : Prop :=
  p.heap.ready = 1 ∧ p.live = ∅ ∧ ∃ m e, run (heapAct B) heapInit (.zeroed m e) = some
    ((), p.heap) ∧
    CleanMapped (mapPages B initialPages heapStart (heapEmpty m e)).2.mem heapStart p.heap.brk

/-- Requests up to the size of the window over clean memory, `kfree` of any pointer, and writes that
make no magic number appear. -/
def CleanEvent (B : Backing σ) (p : HeapSystem σ) : HeapEvent σ → HeapSystem σ → Prop
  | .kmalloc n, q => 1 ≤ n ∧ n ≤ heapMax ∧ (q.heap.brk ≠ p.heap.brk →
      CleanMapped (mapPages B (growthPages (align8 n)) p.heap.brk p.heap).2.mem p.heap.brk
        q.heap.brk)
  | .kfree ptr, _ => ptr < 2 ^ 32
  | .write m, _ => ∀ a, m.read32 a = blockMagic → p.heap.mem.read32 a = blockMagic
  | .backing _, _ => True

/-- No write turns the word twelve bytes after a magic number of the heap into zero. -/
def KeepsFlags (p : HeapSystem σ) : HeapEvent σ → Prop
  | .write m => ∀ a, heapStart ≤ a → a + headerSize ≤ p.heap.brk →
      p.heap.mem.read32 a = blockMagic → p.heap.mem.read32 (a + 12) ≠ 0 → m.read32 (a + 12) ≠ 0
  | _ => True

/-- The states reached by clean events that satisfy `Cond`. -/
def CleanReach (B : Backing σ) (Cond : HeapSystem σ → HeapEvent σ → Prop) : HeapSystem σ → Prop :=
  Reach (CleanStarted B) fun p q => ∃ c, CleanEvent B p c q ∧ Cond p c ∧ HeapStep B c p q

/-- The heap's invariant with sound magic numbers. -/
def MagicInv (p : HeapSystem σ) : Prop :=
  ∃ l, HeapInv p l ∧ MagicSound p.heap.mem p.heap.brk l

theorem MagicInv.started {p : HeapSystem σ} (h : CleanStarted B p) : MagicInv p := by
  obtain ⟨hready, hlive, m, e, hrun, hclean⟩ := h
  have hinv : HeapInv p [freshBlock initialPages] :=
    HeapInv.started (B := B) ⟨⟨m, e, hrun⟩, hready, hlive⟩
  obtain ⟨t, hrun', -, -, ht⟩ := run_heapInit B m e
  obtain rfl : p.heap = t := by
    rw [hrun'] at hrun
    exact (Prod.mk.inj (Option.some.inj hrun)).2.symm
  have hframe := (ht hready).2
  have htiled := hinv.tiled
  have hempty : MagicSound (mapPages B initialPages heapStart (heapEmpty m e)).2.mem heapStart [] :=
    fun a h1 h2 => by omega
  refine ⟨_, hinv, hempty.step htiled.headers htiled.tiles htiled.ceiling htiled.sizes (by decide)
    (Or.inr List.mem_cons_self) (fun y hy hy' => ?_) (fun a h1 h2 hapart ha => hclean a h1 h2 ?_)
    fun b hb => by simp at hb⟩
  · exact hframe y hy'
  · rw [← ha]
    refine (Mem.read32_congr fun y h3 h4 => hframe y fun b hb => ?_).symm
    have := hapart b hb
    omega

/-- **Every clean step keeps the invariant.** -/
theorem MagicInv.step {p q : HeapSystem σ} {c : HeapEvent σ} (h : MagicInv p)
    (hc : CleanEvent B p c q) (hk : KeepsFlags p c) (hs : HeapStep B c p q) : MagicInv q := by
  obtain ⟨l, hinv, hm⟩ := h
  cases hs with
  | @kmalloc s live n ptr t hrun =>
    obtain ⟨h1, h2, hclean⟩ := hc
    obtain ⟨ptr', t', l', hrun', ha⟩ := runs_kmalloc (B := B) hinv.tiled h1
      (h2.trans_lt (by decide)) (growthInWindow_of_le hinv.tiled h2)
    obtain ⟨rfl, rfl⟩ := hrun'.unique hrun
    obtain ⟨hn, hle, -⟩ := payloadSize_align8 h1 (h2.trans_lt (by decide))
    exact ⟨l', hinv.allocated hn hle ha, ha.magicSound hinv.tiled hn hm hclean⟩
  | @kfree s live ptr r t hrun =>
    rcases runs_kfree_any (B := B) hinv hm hc with
      ⟨-, pre, x, post, m, t', rfl, rfl, hrun', hr⟩ | ⟨hdead, out, hrun'⟩
    · obtain ⟨rfl, rfl⟩ := hrun'.unique hrun
      exact ⟨_, ⟨hr.tiled hinv.tiled, hinv.accounts.release hr.used⟩, hr.magicSound hinv.tiled hm⟩
    · obtain ⟨rfl, rfl⟩ := hrun'.unique hrun
      have hlive : {b ∈ live | b.1 ≠ ptr} = live :=
        Set.sep_eq_self_iff_mem_true.2 fun b hb e => hdead b.2 (e ▸ hb)
      rw [hlive]
      exact ⟨l, ⟨hinv.tiled.congr rfl rfl rfl fun _ _ _ _ _ => rfl, hinv.accounts⟩, hm⟩
  | @write s live m hown =>
    refine ⟨l, hinv.write hown, fun a h1 h2 ha => ?_⟩
    obtain ⟨h8, hcase⟩ := hm a h1 h2 (hc a ha)
    refine ⟨h8, hcase.imp_right fun hcase => or_iff_not_imp_left.2 fun hend => ?_⟩
    exact hk a h1 (Nat.not_lt.1 hend) (hc a ha) (hcase.resolve_left hend)
  | backing => exact ⟨l, hinv.backing _, hm⟩

theorem CleanReach.inv {p : HeapSystem σ} (h : CleanReach B KeepsFlags p) : MagicInv p :=
  h.invariant (I := MagicInv) (fun _ h0 => MagicInv.started h0)
    fun _ _ _ hi ⟨_, hc, hk, hs⟩ => hi.step hc hk hs

/-- **`kfree` accepts exactly the live allocations**, in every run in which no write turns the word
twelve bytes after a magic number of the heap into zero: it reads and writes inside
`[heapStart, brk)` only, returns `1` for a live pointer, and returns `0` for any other, after which
only the console has changed. -/
theorem kfree_accepts_live {p : HeapSystem σ} (h : CleanReach B KeepsFlags p) {ptr : ℕ}
    (hptr : ptr < 2 ^ 32) :
    ∃ r t, Runs (heapAct B) (InWindow heapStart p.heap.brk) (kfree ptr) p.heap r t ∧
      ((∃ n, (ptr, n) ∈ p.live) → r = 1) ∧
      ((∀ n, (ptr, n) ∉ p.live) → r = 0 ∧ ∃ out, t = { p.heap with out := out }) := by
  obtain ⟨l, hinv, hm⟩ := h.inv
  rcases runs_kfree_any (B := B) hinv hm hptr with
    ⟨⟨n, hn⟩, _, _, _, _, t, -, -, hrun, -⟩ | ⟨hdead, out, hrun⟩
  · exact ⟨1, t, hrun, fun _ => rfl, fun h => absurd hn (h n)⟩
  · exact ⟨0, _, hrun, fun ⟨n, hn⟩ => absurd hn (hdead n), fun _ => ⟨rfl, out, rfl⟩⟩

/-! ## A stale header -/

theorem mapPage_bump (virt : ℕ) (s : HeapState ℕ) : mapPage bumpBacking virt s =
    (true, { s with
      env := s.env + 1
      mem := showFrame s.mem virt (pageSize * (s.env + 1)) fun _ => 0 }) := by
  have hframe : (bumpBacking.pmmAllocFrame s.env).1 ≠ 0 := Nat.mul_ne_zero (by decide) (by omega)
  have hmapped : ∀ f e, (bumpBacking.pagingMap virt f pageWrite e).1 ≠ 0 := fun _ _ =>
    Nat.one_ne_zero
  simp only [mapPage]
  rw [if_neg hframe, if_neg (hmapped _ _)]
  rfl

/-- Mapping over zeroed memory leaves it zero. -/
theorem mapPages_bump_zero (pages virt : ℕ) {s : HeapState ℕ} (h : ∀ a, s.mem a = 0) (a : ℕ) :
    (mapPages bumpBacking pages virt s).2.mem a = 0 := by
  induction pages generalizing virt s with
  | zero => exact h a
  | succ pages ih =>
    have hg : (mapPage bumpBacking virt s).1 = true := by rw [mapPage_bump]
    rw [mapPages_succ_of_granted hg]
    refine ih _ fun a => ?_
    rw [mapPage_bump]
    simp only [showFrame]
    split_ifs
    · rfl
    · exact h a

theorem freshHeap_started : CleanStarted bumpBacking ⟨freshHeap, ∅⟩ := by
  refine ⟨by decide +kernel, rfl, fun _ => 0, 0, run_freshHeap, fun a _ _ ha => ?_⟩
  have h0 := (magic_bytes ha).1
  rw [mapPages_bump_zero initialPages heapStart (fun _ => rfl)] at h0
  exact absurd h0 (by decide)

variable {Cond : HeapSystem σ → HeapEvent σ → Prop} {live : Set (ℕ × ℕ)}

/-- A request that the mapped heap can serve. -/
theorem CleanReach.kmalloc {n p : ℕ} (h : CleanReach B Cond ⟨s, live⟩)
    (hC : Cond ⟨s, live⟩ (.kmalloc n)) (h1 : 1 ≤ n) (h2 : n ≤ heapMax) (hp : p ≠ 0)
    (hrun : run (heapAct B) (JarvisOS.kmalloc n) s = some (p, t)) (hbrk : t.brk = s.brk) :
    CleanReach B Cond ⟨t, insert (p, n) live⟩ := by
  have hs : HeapStep B (.kmalloc n) ⟨s, live⟩ ⟨t, if p = 0 then live else insert (p, n) live⟩ :=
    .kmalloc hrun
  rw [if_neg hp] at hs
  exact h.next ⟨.kmalloc n, ⟨h1, h2, fun hne => absurd hbrk hne⟩, hC, hs⟩

theorem CleanReach.kfree {ptr r : ℕ} (h : CleanReach B Cond ⟨s, live⟩)
    (hC : Cond ⟨s, live⟩ (.kfree ptr)) (hptr : ptr < 2 ^ 32)
    (hrun : run (heapAct B) (JarvisOS.kfree ptr) s = some (r, t)) :
    CleanReach B Cond ⟨t, {b ∈ live | b.1 ≠ ptr}⟩ :=
  h.next ⟨.kfree ptr, hptr, hC, .kfree hrun⟩

/-- `kfree` accepts the one live pointer and rejects the one after it. -/
theorem kfree_accepts_live_oneBlock :
    (∃ t, run (heapAct bumpBacking) (kfree (heapStart + 16)) oneBlockHeap = some (1, t)) ∧
      ∃ t, run (heapAct bumpBacking) (kfree (heapStart + 17)) oneBlockHeap = some (0, t) := by
  have hreach : CleanReach bumpBacking KeepsFlags ⟨oneBlockHeap, insert (heapStart + 16, 8) ∅⟩ :=
    CleanReach.kmalloc (.start freshHeap_started) trivial (by decide) (by decide) (by decide)
      run_oneBlockHeap (by decide +kernel)
  obtain ⟨r, t, hrun, hr, -⟩ := kfree_accepts_live hreach (show heapStart + 16 < 2 ^ 32 by decide)
  obtain ⟨r', t', hrun', -, hr'⟩ :=
    kfree_accepts_live hreach (show heapStart + 17 < 2 ^ 32 by decide)
  obtain rfl := hr ⟨8, Set.mem_insert _ _⟩
  obtain ⟨rfl, -⟩ := hr' fun n hn => by
    rcases hn with hn | hn
    · exact absurd (Prod.mk.inj hn).1 (by decide)
    · exact hn
  exact ⟨⟨t, hrun.1⟩, t', hrun'.1⟩

/-- The first block has been freed. -/
@[irreducible] def firstFreedHeap : HeapState ℕ := after (heapAct bumpBacking)
    (kfree (heapStart + 16)) twoBlockHeap

/-- Both blocks have been freed, and the second one's header swallowed. -/
@[irreducible] def bothFreedHeap : HeapState ℕ := after (heapAct bumpBacking)
    (kfree (heapStart + 40)) firstFreedHeap

/-- A block of sixty-four bytes, whose payload covers the swallowed header. -/
@[irreducible] def reusedHeap : HeapState ℕ := after (heapAct bumpBacking)
    (kmalloc 64) bothFreedHeap

/-- The owner of that block has zeroed the flag of the swallowed header. -/
def zeroedHeap : HeapState ℕ := reusedHeap.setMem (reusedHeap.mem.memset (heapStart + 36) 0 4)

/-- Zeroing bytes makes no magic number appear. -/
theorem magic_of_memset_zero {a count b : ℕ} (h : (m.memset a 0 count).read32 b = blockMagic) :
    m.read32 b = blockMagic := by
  obtain ⟨h0, h1, h2, h3⟩ := magic_bytes h
  have hsame : ∀ y, (m.memset a 0 count y).toNat ≠ 0 → m y = m.memset a 0 count y := by
    intro y hy
    unfold Mem.memset at hy ⊢
    split_ifs at hy ⊢
    · exact absurd rfl hy
    · rfl
  rw [← h, Mem.read32, Mem.read32, hsame b (by omega), hsame (b + 1) (by omega),
    hsame (b + 2) (by omega), hsame (b + 3) (by omega)]

/-- **`kfree` accepts a pointer that is not live**: two blocks are allocated and freed, their place
is allocated again, and its owner writes zeros inside it; `kfree` of the second pointer then
returns `1`. -/
theorem kfree_accepts_stale : ∃ live, CleanReach bumpBacking (fun _ _ => True) ⟨zeroedHeap, live⟩ ∧
    (∀ n, (heapStart + 40, n) ∉ live) ∧
    ∃ t, run (heapAct bumpBacking) (kfree (heapStart + 40)) zeroedHeap = some (1, t) := by
  have r3 : run (heapAct bumpBacking) (kfree (heapStart + 16)) twoBlockHeap =
      some (1, firstFreedHeap) := by
    unfold firstFreedHeap
    exact run_eq_after _ (by decide +kernel)
  have r4 : run (heapAct bumpBacking) (kfree (heapStart + 40)) firstFreedHeap =
      some (1, bothFreedHeap) := by
    unfold bothFreedHeap
    exact run_eq_after _ (by decide +kernel)
  have r5 : run (heapAct bumpBacking) (kmalloc 64) bothFreedHeap =
      some (heapStart + 16, reusedHeap) := by
    unfold reusedHeap
    exact run_eq_after _ (by decide +kernel)
  have h1 : CleanReach bumpBacking (fun _ _ => True) _ :=
    CleanReach.kmalloc (.start freshHeap_started)
    trivial (by decide) (by decide) (by decide) run_oneBlockHeap (by decide +kernel)
  have h2 := h1.kmalloc trivial (by decide) (by decide) (by decide) run_twoBlockHeap
    (by decide +kernel)
  have h3 := (h2.kfree trivial (by decide) r3).kfree trivial (by decide) r4
  have h5 := h3.kmalloc trivial (by decide) (by decide) (by decide) r5 (by decide +kernel)
  refine ⟨_, h5.next ⟨.write zeroedHeap.mem, fun a ha => magic_of_memset_zero ha, trivial,
    .write fun a ha => ?_⟩, fun n hn => ?_, ?_⟩
  · refine Mem.memset_apply_of_disjoint _ _ ?_
    by_contra hin
    exact ha ⟨_, Set.mem_insert _ _, by simp only; omega, by simp only; omega⟩
  · rcases hn with hn | hn
    · exact absurd (Prod.mk.inj hn).1 (by decide)
    · exact hn.2 rfl
  · exact ⟨_, run_eq_after _ (by decide +kernel)⟩

end JarvisOS
