import Mathlib.Data.Set.Insert
import Mathlib.Order.BooleanAlgebra.Set

/-!
# Caches of a lookup

A cache holds pairs of a key and of what a lookup has once given for it. It takes up and drops pairs
as it likes, and nobody tells it when the state that is looked up in changes; a program can only
have the pairs of a key removed. `Fresh` says that the pairs agree with the lookup, those at the
keys of a set `stale` apart.

A program is a list of events, changes of the state and removals. `Evolves` lets the cache act
before, between and after them, and `staleAfter` follows which keys are stale: a change makes those
stale whose value it takes away or replaces, and a removal cures its key. What is not stale in this
sense is fresh in the cache, whatever the cache does (`Evolves.fresh`).
-/

namespace Foundations

variable {σ K V : Type*}

/-- The pairs of the cache agree with the lookup, those at the keys of `stale` apart. -/
def Fresh (look : K → Option V) (cache : Set (K × V)) (stale : Set K) : Prop :=
  ∀ e ∈ cache, e.1 ∉ stale → look e.1 = some e.2

namespace Fresh

variable {look look' : K → Option V} {cache : Set (K × V)} {stale stale' : Set K}

theorem empty (look : K → Option V) (stale : Set K) : Fresh look ∅ stale :=
  fun _ h => absurd h (Set.notMem_empty _)

/-- A cache that is fresh at all keys. -/
theorem eq_some (h : Fresh look cache ∅) {k : K} {v : V} (hv : (k, v) ∈ cache) : look k = some v :=
  h _ hv (Set.notMem_empty k)

/-- The cache drops pairs. -/
theorem drop (h : Fresh look cache stale) {cache' : Set (K × V)} (hsub : cache' ⊆ cache) :
    Fresh look cache' stale :=
  fun e he hk => h e (hsub he) hk

/-- The cache takes up what the lookup gives. -/
theorem fill (h : Fresh look cache stale) {k : K} {v : V} (hv : look k = some v) :
    Fresh look (insert (k, v) cache) stale := by
  rintro e (rfl | he) hk
  · exact hv
  · exact h e he hk

/-- The lookup changes. -/
theorem change (h : Fresh look cache stale) (look' : K → Option V) :
    Fresh look' cache (stale ∪ {k | ∃ v, look k = some v ∧ look' k ≠ some v}) := by
  intro e he hk
  have hold := h e he fun hmem => hk (Or.inl hmem)
  by_contra hne
  exact hk (Or.inr ⟨e.2, hold, hne⟩)

/-- The pairs of a key are removed. -/
theorem remove (h : Fresh look cache stale) (k : K) :
    Fresh look {e ∈ cache | e.1 ≠ k} (stale \ {k}) :=
  fun e he hk => h e he.1 fun hmem => hk ⟨hmem, he.2⟩

end Fresh

/-- What a program does. -/
inductive CacheEvent (σ K : Type*)
  /-- The state that is looked up in becomes `s`. -/
  | store (s : σ)
  /-- The pairs of a key are removed from the cache. -/
  | remove (k : K)

/-- What may become of the state and the cache while the events happen in order. -/
inductive Evolves (look : σ → K → Option V) :
    σ → Set (K × V) → List (CacheEvent σ K) → σ → Set (K × V) → Prop
  | done (s : σ) (cache : Set (K × V)) : Evolves look s cache [] s cache
  | fill {s t : σ} {cache cache' : Set (K × V)} {es : List (CacheEvent σ K)} {k : K} {v : V}
      (hv : look s k = some v) (h : Evolves look s (insert (k, v) cache) es t cache') :
      Evolves look s cache es t cache'
  | drop {s t : σ} {cache kept cache' : Set (K × V)} {es : List (CacheEvent σ K)}
      (hsub : kept ⊆ cache) (h : Evolves look s kept es t cache') : Evolves look s cache es t cache'
  | store {s s' t : σ} {cache cache' : Set (K × V)} {es : List (CacheEvent σ K)}
      (h : Evolves look s' cache es t cache') : Evolves look s cache (.store s' :: es) t cache'
  | remove {s t : σ} {cache cache' : Set (K × V)} {es : List (CacheEvent σ K)} {k : K}
      (h : Evolves look s {e ∈ cache | e.1 ≠ k} es t cache') :
      Evolves look s cache (.remove k :: es) t cache'

namespace CacheEvent

/-- The state after the events. -/
def lastState (s : σ) : List (CacheEvent σ K) → σ
  | [] => s
  | .store s' :: es => lastState s' es
  | .remove _ :: es => lastState s es

/-- The keys that are stale after the events, `stale` before them. -/
def staleAfter (look : σ → K → Option V) (s : σ) (stale : Set K) : List (CacheEvent σ K) → Set K
  | [] => stale
  | .store s' :: es =>
    staleAfter look s' (stale ∪ {k | ∃ v, look s k = some v ∧ look s' k ≠ some v}) es
  | .remove k :: es => staleAfter look s (stale \ {k}) es

variable {look : σ → K → Option V} {s : σ} {stale : Set K} {es es' : List (CacheEvent σ K)}

theorem lastState_append : lastState s (es ++ es') = lastState (lastState s es) es' := by
  induction es generalizing s with
  | nil => rfl
  | cons e es ih => cases e <;> exact ih

theorem staleAfter_append : staleAfter look s stale (es ++ es') =
    staleAfter look (lastState s es) (staleAfter look s stale es) es' := by
  induction es generalizing s stale with
  | nil => rfl
  | cons e es ih => cases e <;> exact ih

/-- No change takes a value away. -/
def KeepsValues (look : σ → K → Option V) (s : σ) : List (CacheEvent σ K) → Prop
  | [] => True
  | .store s' :: es => (∀ k v, look s k = some v → look s' k = some v) ∧ KeepsValues look s' es
  | .remove _ :: es => KeepsValues look s es

theorem KeepsValues.of_prefix (h : KeepsValues look s es') (hpre : es <+: es') :
    KeepsValues look s es := by
  induction es generalizing s es' with
  | nil => trivial
  | cons e es ih =>
    obtain ⟨rest, rfl⟩ := hpre
    cases e with
    | store s' => exact ⟨h.1, ih h.2 (List.prefix_append es rest)⟩
    | remove k =>
      have hrest : KeepsValues look s (es ++ rest) := h
      exact ih hrest (List.prefix_append es rest)

/-- Changes that leave the lookup as it is. -/
theorem keepsValues_of_same (h : ∀ s', .store s' ∈ es → look s' = look s) :
    KeepsValues look s es := by
  induction es generalizing s with
  | nil => trivial
  | cons e es ih =>
    cases e with
    | store s' =>
      have hs := h s' List.mem_cons_self
      refine ⟨fun k v hv => hs ▸ hv, ih fun t ht => ?_⟩
      rw [hs]
      exact h t (List.mem_cons_of_mem _ ht)
    | remove k => exact ih fun t ht => h t (List.mem_cons_of_mem _ ht)

/-- Where no value is taken away, no key becomes stale. -/
theorem KeepsValues.staleAfter_subset (h : KeepsValues look s es) :
    staleAfter look s stale es ⊆ stale := by
  induction es generalizing s stale with
  | nil => exact subset_rfl
  | cons e es ih =>
    cases e with
    | store s' =>
      refine (ih h.2).trans (Set.union_subset subset_rfl ?_)
      rintro k ⟨v, hv, hne⟩
      exact absurd (h.1 k v hv) hne
    | remove k => exact (ih h).trans Set.sdiff_subset

/-- A change at one key, followed by the removal of its pairs. -/
theorem staleAfter_change_remove {t : σ} {k : K}
    (h : ∀ k' ≠ k, ∀ v, look s k' = some v → look t k' = some v) :
    staleAfter look s ∅ [.store t, .remove k] = ∅ ∧ staleAfter look s ∅ [.store t] ⊆ {k} := by
  have hsub : staleAfter look s ∅ [.store t] ⊆ {k} := by
    rintro k' (hk | ⟨v, hv, hne⟩)
    · exact absurd hk (Set.notMem_empty _)
    · by_contra hkk
      exact hne (h k' hkk v hv)
  exact ⟨Set.sdiff_eq_empty.2 hsub, hsub⟩

/-- A change that takes no value away makes no key stale. -/
theorem staleAfter_store_of_keeps {s' : σ} (h : ∀ k v, look s k = some v → look s' k = some v) :
    staleAfter look s ∅ [.store s'] = ∅ := by
  have hkeeps : KeepsValues look s [.store s'] := ⟨h, trivial⟩
  exact Set.subset_empty_iff.1 hkeeps.staleAfter_subset

/-- **Harmless changes, a change at one key and the removal of its pairs** leave nothing stale, and
on the way nothing but that key. -/
theorem staleAfter_keeps_change_remove {t : σ} {k : K} (hes : KeepsValues look s es)
    (h : ∀ k' ≠ k, ∀ v, look (lastState s es) k' = some v → look t k' = some v) :
    staleAfter look s ∅ (es ++ [.store t, .remove k]) = ∅ ∧
      ∀ pre, pre <+: es ++ [.store t, .remove k] → staleAfter look s ∅ pre ⊆ {k} := by
  have hnone : ∀ pre, pre <+: es → staleAfter look s ∅ pre = ∅ := fun pre hpre =>
    Set.subset_empty_iff.1 (hes.of_prefix hpre).staleAfter_subset
  obtain ⟨hall, hone⟩ := staleAfter_change_remove h
  have happend : ∀ tail, staleAfter look s ∅ (es ++ tail) = staleAfter look
    (lastState s es) ∅ tail := by
    intro tail
    rw [staleAfter_append, hnone es List.prefix_rfl]
  refine ⟨(happend _).trans hall, fun pre hpre => ?_⟩
  have hsplit : es ++ [.store t, .remove k] = es ++ [CacheEvent.store t] ++ [.remove k] := by simp
  rw [hsplit, List.prefix_concat_iff, ← hsplit, List.prefix_concat_iff] at hpre
  rcases hpre with rfl | rfl | hpre
  · rw [happend, hall]
    exact Set.empty_subset _
  · rw [happend]
    exact hone
  · rw [hnone pre hpre]
    exact Set.empty_subset _

end CacheEvent

open CacheEvent in
/-- **Whatever the cache does**, what is not stale is fresh. -/
theorem Evolves.fresh {look : σ → K → Option V} {s t : σ} {cache cache' : Set (K × V)}
    {es : List (CacheEvent σ K)} {stale : Set K} (h : Evolves look s cache es t cache')
    (hfresh : Fresh (look s) cache stale) :
    t = lastState s es ∧ Fresh (look t) cache' (staleAfter look s stale es) := by
  induction h generalizing stale with
  | done => exact ⟨rfl, hfresh⟩
  | fill hv _ ih => exact ih (hfresh.fill hv)
  | drop hsub _ ih => exact ih (hfresh.drop hsub)
  | store _ ih => exact ih (hfresh.change _)
  | remove _ ih => exact ih (hfresh.remove _)

end Foundations
