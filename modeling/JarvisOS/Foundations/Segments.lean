import Mathlib.Data.List.Chain
import Mathlib.Data.List.Pairwise
import Mathlib.Tactic.Common

/-!
# Tilings by segments

A list of segments, each with a payload size and a flag saying whether it is free, laid out one
after the other from an address on, every payload behind a header of `H` bytes. Such a list tiles
its span by construction. `mergeFrom` joins every run of neighbouring free segments; its result has
no two free neighbours (`noFreeNeighbours_mergeFrom`), covers the same span (`span_mergeFrom`) and
holds the same segments in use at the same places (`inUse_mergeFrom`). A list without free
neighbours is determined by its span and its payloads in use (`eq_of_inUse`).
-/

namespace Foundations

/-- A segment: the size of its payload and whether it is free. -/
structure Seg where
  size : ℕ
  free : Bool
  deriving DecidableEq

namespace Seg

variable (H : ℕ)

/-- The bytes covered by a list of segments, headers included. -/
def span : List Seg → ℕ
  | [] => 0
  | x :: l => H + x.size + span l

@[simp] theorem span_nil : span H [] = 0 := rfl

@[simp] theorem span_cons (x : Seg) (l : List Seg) : span H (x :: l) = H + x.size + span H l := rfl

@[simp] theorem span_append (l l' : List Seg) : span H (l ++ l') = span H l + span H l' := by
  induction l with
  | nil => simp
  | cons x l ih => simp only [List.cons_append, span_cons, ih, Nat.add_assoc]

theorem length_mul_le_span (l : List Seg) : l.length * H ≤ span H l := by
  induction l with
  | nil => simp
  | cons x l ih =>
    rw [List.length_cons, Nat.succ_mul, span_cons]
    omega

/-- The headers' addresses when the list is laid out from `a` on. -/
def starts : ℕ → List Seg → List ℕ
  | _, [] => []
  | a, x :: l => a :: starts (a + H + x.size) l

@[simp] theorem starts_nil (a : ℕ) : starts H a [] = [] := rfl

@[simp] theorem starts_cons (a : ℕ) (x : Seg) (l : List Seg) :
    starts H a (x :: l) = a :: starts H (a + H + x.size) l := rfl

theorem starts_append (a : ℕ) (l l' : List Seg) :
    starts H a (l ++ l') = starts H a l ++ starts H (a + span H l) l' := by
  induction l generalizing a with
  | nil => simp
  | cons x l ih =>
    simp only [List.cons_append, starts_cons, span_cons, ih]
    rw [show a + H + x.size + span H l = a + (H + x.size + span H l) by omega]

theorem starts_bounds {a b : ℕ} {l : List Seg} (h : b ∈ starts H a l) :
    a ≤ b ∧ b + H ≤ a + span H l := by
  induction l generalizing a with
  | nil => simp at h
  | cons x l ih =>
    rw [starts_cons, List.mem_cons] at h
    rw [span_cons]
    rcases h with rfl | h
    · omega
    · have := ih h
      omega

/-- Two headers of the list do not overlap. -/
theorem starts_apart {a b c : ℕ} {l : List Seg} (hb : b ∈ starts H a l) (hc : c ∈ starts H a l)
    (hne : b ≠ c) : b + H ≤ c ∨ c + H ≤ b := by
  induction l generalizing a with
  | nil => simp at hb
  | cons x l ih =>
    rw [starts_cons, List.mem_cons] at hb hc
    rcases hb with rfl | hb <;> rcases hc with rfl | hc
    · exact absurd rfl hne
    · have := (starts_bounds H hc).1
      omega
    · have := (starts_bounds H hb).1
      omega
    · exact ih hb hc

/-- The payloads in use, with their sizes. -/
def inUse : ℕ → List Seg → List (ℕ × ℕ)
  | _, [] => []
  | a, x :: l =>
    if x.free then inUse (a + H + x.size) l else (a + H, x.size) :: inUse (a + H + x.size) l

@[simp] theorem inUse_nil (a : ℕ) : inUse H a [] = [] := rfl

theorem inUse_cons_free {x : Seg} (h : x.free = true) (a : ℕ) (l : List Seg) :
    inUse H a (x :: l) = inUse H (a + H + x.size) l := if_pos h

theorem inUse_cons_used {x : Seg} (h : x.free = false) (a : ℕ) (l : List Seg) :
    inUse H a (x :: l) = (a + H, x.size) :: inUse H (a + H + x.size) l := by
  rw [inUse, h]
  rfl

theorem inUse_append (a : ℕ) (l l' : List Seg) :
    inUse H a (l ++ l') = inUse H a l ++ inUse H (a + span H l) l' := by
  induction l generalizing a with
  | nil => simp
  | cons x l ih =>
    have e : a + H + x.size + span H l = a + span H (x :: l) := by
      rw [span_cons]
      omega
    rw [List.cons_append]
    cases hx : x.free with
    | true => rw [inUse_cons_free H hx, inUse_cons_free H hx, ih, e]
    | false => rw [inUse_cons_used H hx, inUse_cons_used H hx, ih, e, List.cons_append]

theorem inUse_bounds {a : ℕ} {l : List Seg} {b : ℕ × ℕ} (h : b ∈ inUse H a l) :
    a + H ≤ b.1 ∧ b.1 + b.2 ≤ a + span H l := by
  induction l generalizing a with
  | nil => simp at h
  | cons x l ih =>
    rw [span_cons]
    cases hx : x.free with
    | true =>
      rw [inUse_cons_free H hx] at h
      have := ih h
      omega
    | false =>
      rw [inUse_cons_used H hx, List.mem_cons] at h
      rcases h with rfl | h
      · simp only
        omega
      · have := ih h
        omega

/-- A segment in use sits at a definite place in the list. -/
theorem exists_of_mem_inUse {a : ℕ} {l : List Seg} {b : ℕ × ℕ} (h : b ∈ inUse H a l) :
    ∃ pre x post, l = pre ++ x :: post ∧ x.free = false ∧ b = (a + span H pre + H, x.size) := by
  induction l generalizing a with
  | nil => simp at h
  | cons x l ih =>
    have deeper : b ∈ inUse H (a + H + x.size) l → ∃ pre y post, x :: l = pre ++ y :: post ∧
        y.free = false ∧ b = (a + span H pre + H, y.size) := fun h => by
      obtain ⟨pre, y, post, rfl, hy, rfl⟩ := ih h
      refine ⟨x :: pre, y, post, rfl, hy, Prod.ext ?_ rfl⟩
      simp only [span_cons]
      omega
    cases hx : x.free with
    | true =>
      rw [inUse_cons_free H hx] at h
      exact deeper h
    | false =>
      rw [inUse_cons_used H hx, List.mem_cons] at h
      rcases h with rfl | h
      · exact ⟨[], x, l, rfl, hx, rfl⟩
      · exact deeper h

/-- Payloads in use lie one after the other, a header apart. -/
theorem inUse_pairwise (a : ℕ) (l : List Seg) :
    (inUse H a l).Pairwise fun b c => b.1 + b.2 + H ≤ c.1 := by
  induction l generalizing a with
  | nil => exact List.Pairwise.nil
  | cons x l ih =>
    cases hx : x.free with
    | true =>
      rw [inUse_cons_free H hx]
      exact ih _
    | false =>
      rw [inUse_cons_used H hx]
      refine List.pairwise_cons.2 ⟨fun c hc => ?_, ih _⟩
      have := (inUse_bounds H hc).1
      simp only
      omega

/-- Headers lie outside the payloads in use. -/
theorem inUse_apart_starts {a b : ℕ} {l : List Seg} {c : ℕ × ℕ} (hc : c ∈ inUse H a l)
    (hb : b ∈ starts H a l) : b + H ≤ c.1 ∨ c.1 + c.2 ≤ b := by
  induction l generalizing a with
  | nil => simp at hb
  | cons x l ih =>
    have hafter : c ∈ inUse H (a + H + x.size) l → b + H ≤ c.1 ∨ c.1 + c.2 ≤ b := fun hc => by
      rcases List.mem_cons.1 hb with rfl | hb
      · have := (inUse_bounds H hc).1
        omega
      · exact ih hc hb
    cases hx : x.free with
    | true =>
      rw [inUse_cons_free H hx] at hc
      exact hafter hc
    | false =>
      rw [inUse_cons_used H hx, List.mem_cons] at hc
      rcases hc with rfl | hc
      · rcases List.mem_cons.1 hb with rfl | hb
        · exact Or.inl le_rfl
        · exact Or.inr (starts_bounds H hb).1
      · exact hafter hc

/-- A payload in use starts where no other does. -/
theorem inUse_unique (hH : 0 < H) {a : ℕ} {l : List Seg} {b c : ℕ × ℕ} (hb : b ∈ inUse H a l)
    (hc : c ∈ inUse H a l) (h : b.1 = c.1) : b = c := by
  by_contra hne
  have hp := (inUse_pairwise H a l).imp (S := fun b c => b.1 ≠ c.1) fun _ => by omega
  have : Std.Symm fun b c : ℕ × ℕ => b.1 ≠ c.1 := ⟨fun _ _ h' => h'.symm⟩
  exact hp.forall hb hc hne h

/-- The payload of a free segment is not in use. -/
theorem not_mem_inUse_of_free (hH : 0 < H) {a : ℕ} {pre post : List Seg} {x : Seg}
    (hx : x.free = true) {b : ℕ × ℕ} (hb : b ∈ inUse H a (pre ++ x :: post)) :
    b.1 ≠ a + span H pre + H := by
  rw [inUse_append, inUse_cons_free H hx, List.mem_append] at hb
  rcases hb with hb | hb <;> have := inUse_bounds H hb <;> omega

/-- The payload bytes of the free segments. -/
def freeBytes : List Seg → ℕ
  | [] => 0
  | x :: l => (if x.free then x.size else 0) + freeBytes l

/-- The bytes of all headers and of the payloads in use. -/
def usedBytes : List Seg → ℕ
  | [] => 0
  | x :: l => H + (if x.free then 0 else x.size) + usedBytes l

theorem usedBytes_add_freeBytes (l : List Seg) : usedBytes H l + freeBytes l = span H l := by
  induction l with
  | nil => rfl
  | cons x l ih =>
    rw [usedBytes, freeBytes, span_cons, ← ih]
    split_ifs <;> omega

/-! ## Joining free neighbours -/

/-- No two neighbours are both free. -/
def NoFreeNeighbours (l : List Seg) : Prop :=
  l.IsChain fun x y => ¬ (x.free = true ∧ y.free = true)

/-- Join the segment `x` with the free segments that follow it, and so on along the list. -/
def mergeFrom : Seg → List Seg → List Seg
  | x, [] => [x]
  | x, y :: l =>
    if x.free && y.free then mergeFrom ⟨x.size + (H + y.size), true⟩ l else x :: mergeFrom y l

/-- Join every run of neighbouring free segments. -/
def merge : List Seg → List Seg
  | [] => []
  | x :: l => mergeFrom H x l

@[simp] theorem mergeFrom_nil (x : Seg) : mergeFrom H x [] = [x] := rfl

theorem mergeFrom_join {x y : Seg} (hx : x.free = true) (hy : y.free = true) (l : List Seg) :
    mergeFrom H x (y :: l) = mergeFrom H ⟨x.size + (H + y.size), true⟩ l := by
  rw [mergeFrom, hx, hy]
  rfl

theorem mergeFrom_skip {x y : Seg} (h : ¬ (x.free = true ∧ y.free = true)) (l : List Seg) :
    mergeFrom H x (y :: l) = x :: mergeFrom H y l := by
  rw [mergeFrom, if_neg (by simpa using h)]

/-- The first segment keeps its flag. -/
theorem mergeFrom_eq_cons (x : Seg) (l : List Seg) :
    ∃ y l', mergeFrom H x l = y :: l' ∧ y.free = x.free := by
  induction l generalizing x with
  | nil => exact ⟨x, [], rfl, rfl⟩
  | cons y l ih =>
    by_cases h : x.free = true ∧ y.free = true
    · rw [mergeFrom_join H h.1 h.2, h.1]
      exact ih ⟨_, true⟩
    · exact ⟨x, _, mergeFrom_skip H h l, rfl⟩

theorem span_mergeFrom (x : Seg) (l : List Seg) : span H (mergeFrom H x l) = span H (x :: l) := by
  induction l generalizing x with
  | nil => rfl
  | cons y l ih =>
    by_cases h : x.free = true ∧ y.free = true
    · rw [mergeFrom_join H h.1 h.2, ih]
      simp only [span_cons]
      omega
    · simp only [mergeFrom_skip H h, span_cons, ih]

theorem noFreeNeighbours_mergeFrom (x : Seg) (l : List Seg) :
    NoFreeNeighbours (mergeFrom H x l) := by
  induction l generalizing x with
  | nil => exact List.isChain_singleton _
  | cons y l ih =>
    by_cases h : x.free = true ∧ y.free = true
    · rw [mergeFrom_join H h.1 h.2]
      exact ih _
    · obtain ⟨z, l', e, hz⟩ := mergeFrom_eq_cons H y l
      have := ih y
      rw [mergeFrom_skip H h, e]
      rw [e] at this
      exact List.isChain_cons_cons.2 ⟨hz ▸ h, this⟩

/-- **Joining moves no segment in use.** -/
theorem inUse_mergeFrom (a : ℕ) (x : Seg) (l : List Seg) :
    inUse H a (mergeFrom H x l) = inUse H a (x :: l) := by
  induction l generalizing a x with
  | nil => rfl
  | cons y l ih =>
    by_cases h : x.free = true ∧ y.free = true
    · rw [mergeFrom_join H h.1 h.2, ih, inUse_cons_free H rfl, inUse_cons_free H h.1,
        inUse_cons_free H h.2]
      congr 1
      simp only
      omega
    · rw [mergeFrom_skip H h]
      cases hx : x.free with
      | true => rw [inUse_cons_free H hx, inUse_cons_free H hx, ih]
      | false => rw [inUse_cons_used H hx, inUse_cons_used H hx, ih]

/-- What holds of all sizes and of the sum of two with a header holds of the joined sizes. -/
theorem forall_size_mergeFrom {P : ℕ → Prop} (hP : ∀ m n, P m → P n → P (m + (H + n))) {x : Seg}
    {l : List Seg} (h : ∀ y ∈ x :: l, P y.size) : ∀ y ∈ mergeFrom H x l, P y.size := by
  induction l generalizing x with
  | nil => exact h
  | cons y l ih =>
    obtain ⟨hx, hl⟩ := List.forall_mem_cons.1 h
    by_cases hf : x.free = true ∧ y.free = true
    · rw [mergeFrom_join H hf.1 hf.2]
      obtain ⟨hy, hl⟩ := List.forall_mem_cons.1 hl
      exact ih (List.forall_mem_cons.2 ⟨hP _ _ hx hy, hl⟩)
    · rw [mergeFrom_skip H hf]
      exact List.forall_mem_cons.2 ⟨hx, ih hl⟩

theorem span_merge (l : List Seg) : span H (merge H l) = span H l := by
  cases l with
  | nil => rfl
  | cons x l => exact span_mergeFrom H x l

theorem inUse_merge (a : ℕ) (l : List Seg) : inUse H a (merge H l) = inUse H a l := by
  cases l with
  | nil => rfl
  | cons x l => exact inUse_mergeFrom H a x l

theorem noFreeNeighbours_merge (l : List Seg) : NoFreeNeighbours (merge H l) := by
  cases l with
  | nil => exact List.isChain_nil
  | cons x l => exact noFreeNeighbours_mergeFrom H x l

theorem forall_size_merge {P : ℕ → Prop} (hP : ∀ m n, P m → P n → P (m + (H + n))) {l : List Seg}
    (h : ∀ y ∈ l, P y.size) : ∀ y ∈ merge H l, P y.size := by
  cases l with
  | nil => exact h
  | cons x l => exact forall_size_mergeFrom H hP h

/-- Joining drops the headers of free segments only. -/
theorem mem_starts_mergeFrom {a b : ℕ} {x : Seg} {l : List Seg} :
    (b ∈ starts H a (mergeFrom H x l) → b ∈ starts H a (x :: l)) ∧
    (b ∈ starts H a (x :: l) → b ∈ starts H a (mergeFrom H x l) ∨
      ∃ pre y post, x :: l = pre ++ y :: post ∧ b = a + span H pre ∧ y.free = true) := by
  induction l generalizing a x with
  | nil => exact ⟨id, Or.inl⟩
  | cons y l ih =>
    by_cases h : x.free = true ∧ y.free = true
    · rw [mergeFrom_join H h.1 h.2]
      have e : a + H + (x.size + (H + y.size)) = a + H + x.size + H + y.size := by omega
      obtain ⟨ih₁, ih₂⟩ := ih (a := a) (x := ⟨x.size + (H + y.size), true⟩)
      rw [starts_cons, e] at ih₁ ih₂
      rw [starts_cons, starts_cons]
      refine ⟨fun hb => ?_, fun hb => ?_⟩
      · rcases List.mem_cons.1 (ih₁ hb) with rfl | hb
        · exact List.mem_cons_self
        · exact List.mem_cons_of_mem _ (List.mem_cons_of_mem _ hb)
      · have later : b ∈ a :: starts H (a + H + x.size + H + y.size) l →
            b ∈ starts H a (mergeFrom H ⟨x.size + (H + y.size), true⟩ l) ∨
            ∃ pre z post, x :: y :: l = pre ++ z :: post ∧ b = a + span H pre ∧ z.free = true := by
          intro hb
          rcases ih₂ hb with hb | ⟨pre, z, post, e', rfl, hz⟩
          · exact Or.inl hb
          · refine Or.inr ?_
            cases pre with
            | nil => exact ⟨[], x, y :: l, rfl, rfl, h.1⟩
            | cons w pre =>
              obtain ⟨rfl, rfl⟩ := List.cons.inj e'
              refine ⟨x :: y :: pre, z, post, rfl, ?_, hz⟩
              simp only [span_cons]
              omega
        rcases List.mem_cons.1 hb with rfl | hb
        · exact later List.mem_cons_self
        · rcases List.mem_cons.1 hb with rfl | hb
          · exact Or.inr ⟨[x], y, l, rfl, by simp only [span_cons, span_nil]; omega, h.2⟩
          · exact later (List.mem_cons_of_mem _ hb)
    · rw [mergeFrom_skip H h, starts_cons]
      obtain ⟨ih₁, ih₂⟩ := ih (a := a + H + x.size) (x := y)
      refine ⟨fun hb => ?_, fun hb => ?_⟩
      · rcases List.mem_cons.1 hb with rfl | hb
        · exact List.mem_cons_self
        · exact List.mem_cons_of_mem _ (ih₁ hb)
      · rcases List.mem_cons.1 hb with rfl | hb
        · exact Or.inl List.mem_cons_self
        · rcases ih₂ hb with hb | ⟨pre, z, post, e', rfl, hz⟩
          · exact Or.inl (List.mem_cons_of_mem _ hb)
          · refine Or.inr ⟨x :: pre, z, post, by rw [e']; rfl, ?_, hz⟩
            rw [span_cons]
            omega

theorem starts_merge_subset {a b : ℕ} {l : List Seg} (h : b ∈ starts H a (merge H l)) :
    b ∈ starts H a l := by
  cases l with
  | nil => exact h
  | cons x l => exact (mem_starts_mergeFrom H).1 h

/-- A header dropped by joining belongs to a free segment. -/
theorem free_of_not_mem_starts_merge {a b : ℕ} {l : List Seg} (hb : b ∈ starts H a l)
    (hm : b ∉ starts H a (merge H l)) :
    ∃ pre y post, l = pre ++ y :: post ∧ b = a + span H pre ∧ y.free = true := by
  cases l with
  | nil => simp at hb
  | cons x l => exact ((mem_starts_mergeFrom H).2 hb).resolve_left hm

theorem merge_ne_nil {l : List Seg} (h : l ≠ []) : merge H l ≠ [] := by
  cases l with
  | nil => exact absurd rfl h
  | cons x l =>
    obtain ⟨y, l', e, -⟩ := mergeFrom_eq_cons H x l
    rw [merge, e]
    exact List.cons_ne_nil y l'

/-- **Appending a free segment** and joining changes the end of the list only. -/
theorem merge_append_free {l : List Seg} (h : NoFreeNeighbours l) {f : Seg} (hf : f.free = true) :
    ∃ pre x, merge H (l ++ [f]) = pre ++ [x] ∧ pre <+: l := by
  induction l with
  | nil => exact ⟨[], f, rfl, List.nil_prefix⟩
  | cons y l ih =>
    by_cases hy : l = [] ∧ y.free = true
    · obtain ⟨rfl, hy⟩ := hy
      exact ⟨[], _, mergeFrom_join H hy hf [], List.nil_prefix⟩
    · obtain ⟨pre, x, e, hpre⟩ := ih h.tail
      refine ⟨y :: pre, x, ?_, List.cons_prefix_cons.2 ⟨rfl, hpre⟩⟩
      rw [List.cons_append, List.cons_append, ← e]
      cases l with
      | nil =>
        rw [List.nil_append, merge, mergeFrom_skip H (fun hboth => hy ⟨rfl, hboth.1⟩)]
        rfl
      | cons z l => exact mergeFrom_skip H (List.isChain_cons_cons.1 h).1 (l ++ [f])

/-! ## First fit -/

/-- The segment is free and large enough. -/
def Fits (n : ℕ) (x : Seg) : Prop := x.free = true ∧ n ≤ x.size

instance (n : ℕ) (x : Seg) : Decidable (x.Fits n) := inferInstanceAs (Decidable (_ ∧ _))

/-- Either nothing fits, or there is a first segment that does. -/
theorem firstFit (n : ℕ) (l : List Seg) :
    (∀ x ∈ l, ¬ x.Fits n) ∨
      ∃ pre x post, l = pre ++ x :: post ∧ (∀ y ∈ pre, ¬ y.Fits n) ∧ x.Fits n := by
  induction l with
  | nil => exact Or.inl fun x hx => by simp at hx
  | cons y l ih =>
    by_cases hy : y.Fits n
    · exact Or.inr ⟨[], y, l, rfl, fun z hz => by simp at hz, hy⟩
    · rcases ih with hnone | ⟨pre, x, post, rfl, hpre, hx⟩
      · exact Or.inl (List.forall_mem_cons.2 ⟨hy, hnone⟩)
      · exact Or.inr ⟨y :: pre, x, post, rfl, List.forall_mem_cons.2 ⟨hy, hpre⟩, hx⟩

/-- Where only the last segment fits, first fit finds it. -/
theorem firstFit_last {n : ℕ} {l pre post : List Seg} {x y : Seg} (e : l ++ [y] = pre ++ x :: post)
    (hl : ∀ z ∈ l, ¬ z.Fits n) (hx : x.Fits n) : pre = l ∧ x = y ∧ post = [] := by
  rcases List.eq_nil_or_concat post with rfl | ⟨post, z, rfl⟩
  · obtain ⟨rfl, hlast⟩ := List.append_inj' e rfl
    exact ⟨rfl, (List.cons.inj hlast).1.symm, rfl⟩
  · rw [List.concat_eq_append, ← List.cons_append, ← List.append_assoc] at e
    obtain ⟨rfl, -⟩ := List.append_inj' e rfl
    exact absurd hx (hl x (List.mem_append_right _ List.mem_cons_self))

/-- Joining keeps a segment that is large enough. -/
theorem exists_fits_mergeFrom {n : ℕ} {x : Seg} {l : List Seg} (h : ∃ y ∈ x :: l, y.Fits n) :
    ∃ y ∈ mergeFrom H x l, y.Fits n := by
  induction l generalizing x with
  | nil => exact h
  | cons y l ih =>
    obtain ⟨z, hz, hfit⟩ := h
    by_cases hf : x.free = true ∧ y.free = true
    · rw [mergeFrom_join H hf.1 hf.2]
      rcases List.mem_cons.1 hz with rfl | hz
      · exact ih ⟨_, List.mem_cons_self, rfl, hfit.2.trans (Nat.le_add_right _ _)⟩
      · rcases List.mem_cons.1 hz with rfl | hz
        · exact ih ⟨_, List.mem_cons_self, rfl, hfit.2.trans
            ((Nat.le_add_left _ _).trans (Nat.le_add_left _ _))⟩
        · exact ih ⟨z, List.mem_cons_of_mem _ hz, hfit⟩
    · rw [mergeFrom_skip H hf]
      rcases List.mem_cons.1 hz with rfl | hz
      · exact ⟨z, List.mem_cons_self, hfit⟩
      · obtain ⟨w, hw, hwfit⟩ := ih ⟨z, hz, hfit⟩
        exact ⟨w, List.mem_cons_of_mem x hw, hwfit⟩

theorem exists_fits_merge {n : ℕ} {l : List Seg} (h : ∃ y ∈ l, y.Fits n) :
    ∃ y ∈ merge H l, y.Fits n := by
  cases l with
  | nil => exact h
  | cons x l => exact exists_fits_mergeFrom H h

/-- Take `n` bytes of a free segment: split off the rest if it can hold `t` bytes, otherwise give
the segment away whole. -/
def carve (t n : ℕ) (x : Seg) : List Seg :=
  if n + H + t ≤ x.size then [⟨n, false⟩, ⟨x.size - n - H, true⟩] else [⟨x.size, false⟩]

theorem span_carve (t n : ℕ) (x : Seg) : span H (carve H t n x) = H + x.size := by
  unfold carve
  split_ifs
  · simp only [span_cons, span_nil]
    omega
  · simp

/-- A segment in use separates what stands before it from what follows. -/
theorem NoFreeNeighbours.append_used {pre l : List Seg} {x : Seg} (hpre : NoFreeNeighbours pre)
    (hx : x.free = false) (hl : NoFreeNeighbours (x :: l)) : NoFreeNeighbours (pre ++ x :: l) := by
  apply List.isChain_append.2 ⟨hpre, hl, _⟩
  intro y _ z hz
  simp only [List.head?_cons, Option.mem_some_iff] at hz
  simp [← hz, hx]

/-- Taking a segment from a list without free neighbours leaves none. -/
theorem noFreeNeighbours_carve {t n : ℕ} {pre post : List Seg} {x : Seg} (hx : x.free = true)
    (h : NoFreeNeighbours (pre ++ x :: post)) :
    NoFreeNeighbours (pre ++ carve H t n x ++ post) := by
  obtain ⟨hpre, hpost, -⟩ := List.isChain_append.1 h
  rw [List.isChain_cons] at hpost
  -- the first piece is in use, and the last is free only if `x` was
  unfold carve
  split_ifs
  · have hrest : NoFreeNeighbours (⟨x.size - n - H, true⟩ :: post) := by
      apply List.isChain_cons.2 ⟨_, hpost.2⟩
      intro y hy
      simpa [hx] using hpost.1 y hy
    rw [List.append_assoc]
    apply NoFreeNeighbours.append_used hpre rfl
    exact List.isChain_cons_cons.2 ⟨by simp, hrest⟩
  · rw [List.append_assoc]
    apply NoFreeNeighbours.append_used hpre rfl
    exact List.isChain_cons.2 ⟨fun y hy => by simp, hpost.2⟩

theorem carve_ne_nil (t n : ℕ) (x : Seg) : carve H t n x ≠ [] := by
  unfold carve
  split_ifs <;> exact List.cons_ne_nil _ _

/-- Taking a segment keeps every header. -/
theorem starts_subset_carve {a b t n : ℕ} {pre post : List Seg} {x : Seg}
    (h : b ∈ starts H a (pre ++ x :: post)) : b ∈ starts H a (pre ++ carve H t n x ++ post) := by
  rw [starts_append, starts_cons] at h
  rw [List.append_assoc, starts_append, starts_append, span_carve]
  rcases List.mem_append.1 h with h | h
  · exact List.mem_append_left _ h
  · refine List.mem_append_right _ ?_
    rcases List.mem_cons.1 h with rfl | h
    · refine List.mem_append_left _ ?_
      unfold carve
      split_ifs <;> exact List.mem_cons_self
    · rw [← Nat.add_assoc]
      exact List.mem_append_right _ h

/-- Taking a segment adds at most the header of the rest. -/
theorem mem_starts_of_carve {a b t n : ℕ} {pre post : List Seg} {x : Seg}
    (h : b ∈ starts H a (pre ++ carve H t n x ++ post)) :
    b ∈ starts H a (pre ++ x :: post) ∨ (n + H + t ≤ x.size ∧ b = a + span H pre + H + n) := by
  rw [List.append_assoc, starts_append, starts_append, span_carve] at h
  rw [starts_append, starts_cons, List.mem_append, List.mem_cons, Nat.add_assoc _ H x.size]
  unfold carve at h
  split_ifs at h with hsplit <;> simp only [starts_cons, starts_nil, List.mem_append, List.mem_cons,
    List.not_mem_nil, or_false] at h
  · rcases h with h | (h | h) | h
    · exact Or.inl (Or.inl h)
    · exact Or.inl (Or.inr (Or.inl h))
    · exact Or.inr ⟨hsplit, h⟩
    · exact Or.inl (Or.inr (Or.inr h))
  · exact Or.inl h

/-- What holds of the size asked for, of the whole and of the rest holds of the pieces. -/
theorem forall_size_carve {P : ℕ → Prop} {t n : ℕ} {x : Seg} (hn : P n) (hx : P x.size)
    (hrest : n + H + t ≤ x.size → P (x.size - n - H)) : ∀ y ∈ carve H t n x, P y.size := by
  unfold carve
  split_ifs with h
  · simpa using ⟨hn, hrest h⟩
  · simpa using hx

/-- Taking a segment adds it to those in use. -/
theorem mem_inUse_carve {a t n : ℕ} (pre post : List Seg) {x : Seg} (hx : x.Fits n) :
    ∃ size, n ≤ size ∧ ∀ b, b ∈ inUse H a (pre ++ carve H t n x ++ post) ↔
      b = (a + span H pre + H, size) ∨ b ∈ inUse H a (pre ++ x :: post) := by
  have hspan := span_carve H t n x
  have hcarve : ∃ size, n ≤ size ∧
      inUse H (a + span H pre) (carve H t n x) = [(a + span H pre + H, size)] := by
    unfold carve
    split_ifs
    · exact ⟨n, le_rfl, rfl⟩
    · exact ⟨x.size, hx.2, rfl⟩
  obtain ⟨size, hle, hcarve⟩ := hcarve
  refine ⟨size, hle, fun b => ?_⟩
  rw [List.append_assoc, inUse_append, inUse_append, hcarve, hspan, inUse_append,
    inUse_cons_free H hx.1, ← Nat.add_assoc]
  simp only [List.mem_append, List.mem_singleton]
  exact or_left_comm

/-- Setting a segment free removes it from those in use. -/
theorem mem_inUse_release {a : ℕ} (pre post : List Seg) {x : Seg} (hx : x.free = false)
    (hH : 0 < H) (b : ℕ × ℕ) : b ∈ inUse H a (pre ++ ⟨x.size, true⟩ :: post) ↔
      b ∈ inUse H a (pre ++ x :: post) ∧ b ≠ (a + span H pre + H, x.size) := by
  rw [inUse_append, inUse_append, inUse_cons_free H rfl, inUse_cons_used H hx]
  simp only [List.mem_append, List.mem_cons]
  constructor
  · rintro (h | h)
    · have := (inUse_bounds H h).2
      exact ⟨Or.inl h, fun e => by rw [e] at this; simp only at this; omega⟩
    · have := (inUse_bounds H h).1
      exact ⟨Or.inr (Or.inr h), fun e => by rw [e] at this; simp only at this; omega⟩
  · rintro ⟨h | h | h, hne⟩
    · exact Or.inl h
    · exact absurd h hne
    · exact Or.inr h

/-! ## The list is determined by what is in use -/

/-- Freeing a segment takes its payload off those in use, and no other. -/
theorem inUse_release {a : ℕ} (pre post : List Seg) {x : Seg} (hx : x.free = false) (hH : 0 < H) :
    inUse H a (pre ++ ⟨x.size, true⟩ :: post) =
      (inUse H a (pre ++ x :: post)).filter fun b => b.1 ≠ a + span H pre + H := by
  have hbefore : (inUse H a pre).filter (fun b => b.1 ≠ a + span H pre + H) = inUse H a pre := by
    apply List.filter_eq_self.2
    intro b hb
    have := inUse_bounds H hb
    exact decide_eq_true (by omega)
  have hafter : (inUse H (a + span H pre + H + x.size) post).filter
      (fun b => b.1 ≠ a + span H pre + H) = inUse H (a + span H pre + H + x.size) post := by
    apply List.filter_eq_self.2
    intro b hb
    have := inUse_bounds H hb
    exact decide_eq_true (by omega)
  rw [inUse_append, inUse_append, inUse_cons_free H rfl, inUse_cons_used H hx, List.filter_append,
    List.filter_cons_of_neg (by simp), hbefore, hafter]

/-- After a free segment comes one in use, or nothing. -/
theorem NoFreeNeighbours.next_used {x y : Seg} {l : List Seg} (h : NoFreeNeighbours (x :: y :: l))
    (hx : x.free = true) : y.free = false := by
  have hxy := (List.isChain_cons_cons.1 h).1
  exact Bool.eq_false_iff.2 fun hy => hxy ⟨hx, hy⟩

/-- Two free segments that begin at one address, in lists with the same payloads in use, end at one
address. -/
theorem size_eq_of_inUse {a : ℕ} {x y : Seg} {l l' : List Seg} (h : NoFreeNeighbours (x :: l))
    (h' : NoFreeNeighbours (y :: l')) (hx : x.free = true) (hy : y.free = true)
    (hspan : span H (x :: l) = span H (y :: l'))
    (huse : inUse H (a + H + x.size) l = inUse H (a + H + y.size) l') : x.size = y.size := by
  rw [span_cons, span_cons] at hspan
  cases l with
  | nil =>
    cases l' with
    | nil =>
      simp only [span_nil] at hspan
      omega
    | cons z l' =>
      rw [inUse_nil, inUse_cons_used H (h'.next_used hy)] at huse
      exact absurd huse (List.cons_ne_nil _ _).symm
  | cons w l =>
    rw [inUse_cons_used H (h.next_used hx)] at huse
    cases l' with
    | nil => exact absurd huse (List.cons_ne_nil _ _)
    | cons z l' =>
      rw [inUse_cons_used H (h'.next_used hy)] at huse
      have := (Prod.mk.inj (List.cons.inj huse).1).1
      omega

/-- **A list without free neighbours is determined** by its span and by the payloads in use. -/
theorem eq_of_inUse (hH : 0 < H) {a : ℕ} {l l' : List Seg} (h : NoFreeNeighbours l)
    (h' : NoFreeNeighbours l') (hspan : span H l = span H l')
    (huse : inUse H a l = inUse H a l') : l = l' := by
  induction l generalizing a l' with
  | nil =>
    cases l' with
    | nil => rfl
    | cons y l' =>
      rw [span_nil, span_cons] at hspan
      omega
  | cons x l ih =>
    cases l' with
    | nil =>
      rw [span_nil, span_cons] at hspan
      omega
    | cons y l' =>
      have htails : x = y → inUse H (a + H + x.size) l = inUse H (a + H + y.size) l' →
          x :: l = y :: l' := by
        rintro rfl hrest
        rw [span_cons, span_cons, Nat.add_left_cancel_iff] at hspan
        exact congrArg (x :: ·) (ih h.tail h'.tail hspan hrest)
      obtain ⟨m, f⟩ := x
      obtain ⟨n, g⟩ := y
      -- the first segment is in use in both lists or in neither
      cases f with
      | true =>
        rw [inUse_cons_free H rfl] at huse
        cases g with
        | true =>
          rw [inUse_cons_free H rfl] at huse
          obtain rfl := size_eq_of_inUse H h h' rfl rfl hspan huse
          exact htails rfl huse
        | false =>
          rw [inUse_cons_used H rfl] at huse
          have := (inUse_bounds H (huse.symm ▸ List.mem_cons_self : (a + H, n) ∈ _)).1
          simp only at this
          omega
      | false =>
        rw [inUse_cons_used H rfl] at huse
        cases g with
        | true =>
          rw [inUse_cons_free H rfl] at huse
          have := (inUse_bounds H (huse ▸ List.mem_cons_self : (a + H, m) ∈ _)).1
          simp only at this
          omega
        | false =>
          rw [inUse_cons_used H rfl] at huse
          obtain ⟨hhead, hrest⟩ := List.cons.inj huse
          obtain rfl := (Prod.mk.inj hhead).2
          exact htails rfl hrest

/-- A carved segment that is freed again is as if it had never been taken. -/
theorem merge_release_carve (hH : 0 < H) {t n : ℕ} {pre post rest : List Seg} {x y : Seg}
    (hx : x.free = true) (h : NoFreeNeighbours (pre ++ x :: post))
    (hcarve : carve H t n x = y :: rest) :
    merge H (pre ++ ⟨y.size, true⟩ :: (rest ++ post)) = pre ++ x :: post := by
  have hspan := span_carve H t n x
  rw [hcarve, span_cons] at hspan
  refine eq_of_inUse H hH (a := 0) (noFreeNeighbours_merge H _) h ?_ ?_
  · rw [span_merge]
    simp only [span_append, span_cons]
    omega
  · rw [inUse_merge, inUse_append, inUse_append, inUse_cons_free H rfl, inUse_cons_free H hx,
      inUse_append]
    have hrest : inUse H (0 + span H pre + H + y.size) rest = [] := by
      clear hspan
      unfold carve at hcarve
      split_ifs at hcarve
      · obtain ⟨-, rfl⟩ := List.cons.inj hcarve
        exact inUse_cons_free H rfl _ []
      · obtain ⟨-, rfl⟩ := List.cons.inj hcarve
        rfl
    have hend : 0 + span H pre + H + y.size + span H rest = 0 + span H pre + H + x.size := by omega
    rw [hrest, List.nil_append, hend]

end Seg

end Foundations
