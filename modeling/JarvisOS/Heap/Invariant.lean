import JarvisOS.Foundations.Reach
import JarvisOS.Heap.Calls
import Mathlib.Data.Set.Insert

/-!
# The heap over whole runs

A heap system is the heap's state together with the set of live allocations, each with the size it
was asked for with. Its steps are the calls of `kmalloc` and `kfree`, writes of owners inside their
own payloads, and changes of the state behind the heap. `HeapInv` says that some list of blocks
tiles the mapped part of the window and that its blocks in use are the live allocations; it holds in
every state reached from a successful `heap_init` (`HeapReach.inv`), and `heap_invariant` spells out
what this means for the bytes in memory.
-/

namespace JarvisOS

open Foundations HeapOp Prog

variable {σ : Type} {B : Backing σ}

/-! ## Accounting -/

/-- The live allocations are the payloads in use of the list. -/
structure Accounts (live : Set (ℕ × ℕ)) (l : List Seg) : Prop where
  sized : ∀ b ∈ live, ∃ size, b.2 ≤ size ∧ (b.1, size) ∈ Seg.inUse headerSize heapStart l
  owned : ∀ c ∈ Seg.inUse headerSize heapStart l, ∃ n, (c.1, n) ∈ live
  unique : ∀ b ∈ live, ∀ c ∈ live, b.1 = c.1 → b = c

namespace Accounts

variable {live : Set (ℕ × ℕ)} {l l' pre post : List Seg} {x : Seg}

/-- Only the payloads in use count. -/
theorem congr (h : Accounts live l)
    (e : Seg.inUse headerSize heapStart l' = Seg.inUse headerSize heapStart l) : Accounts live l' :=
  ⟨by rw [e]; exact h.sized, by rw [e]; exact h.owned, h.unique⟩

/-- Payloads of distinct live allocations do not overlap. -/
theorem disjoint (h : Accounts live l) {b c : ℕ × ℕ} (hb : b ∈ live) (hc : c ∈ live) (hne : b ≠ c) :
    b.1 + b.2 ≤ c.1 ∨ c.1 + c.2 ≤ b.1 := by
  obtain ⟨m, hm, hbm⟩ := h.sized b hb
  obtain ⟨n, hn, hcn⟩ := h.sized c hc
  have hp := (Seg.inUse_pairwise headerSize heapStart l).imp
    (S := fun b c => b.1 + b.2 ≤ c.1 ∨ c.1 + c.2 ≤ b.1) fun h => Or.inl (by omega)
  have : Std.Symm fun b c : ℕ × ℕ => b.1 + b.2 ≤ c.1 ∨ c.1 + c.2 ≤ b.1 := ⟨fun _ _ => Or.symm⟩
  have := hp.forall hbm hcn fun e => hne (h.unique b hb c hc (Prod.mk.inj e).1)
  simp only at this
  omega

/-- A block taken becomes one more allocation. -/
theorem carve {least size n : ℕ} (h : Accounts live (pre ++ x :: post)) (hx : x.Fits size)
    (hn : n ≤ size) : Accounts (insert (heapStart + Seg.span headerSize pre + headerSize, n) live)
      (pre ++ Seg.carve headerSize least size x ++ post) := by
  obtain ⟨big, hbig, hmem⟩ := Seg.mem_inUse_carve headerSize (a := heapStart) (t := least)
    pre post hx
  set p := heapStart + Seg.span headerSize pre + headerSize with hp
  have hfresh : ∀ b ∈ live, b.1 ≠ p := fun b hb => by
    obtain ⟨size, -, hin⟩ := h.sized b hb
    exact Seg.not_mem_inUse_of_free headerSize (by decide) hx.1 (b := (b.1, size)) hin
  refine ⟨?_, fun c hc => ?_, ?_⟩
  · rintro b (rfl | hb)
    · exact ⟨big, hn.trans hbig, (hmem _).2 (Or.inl rfl)⟩
    · obtain ⟨size, hle, hin⟩ := h.sized b hb
      exact ⟨size, hle, (hmem _).2 (Or.inr hin)⟩
  · rcases (hmem c).1 hc with rfl | hc
    · exact ⟨n, Set.mem_insert _ _⟩
    · obtain ⟨n, hn⟩ := h.owned c hc
      exact ⟨n, Set.mem_insert_of_mem _ hn⟩
  · rintro b (rfl | hb) c (rfl | hc) e
    · rfl
    · exact absurd e.symm (hfresh c hc)
    · exact absurd e (hfresh b hb)
    · exact h.unique b hb c hc e

/-- A block freed is one allocation less. -/
theorem release (h : Accounts live (pre ++ x :: post)) (hx : x.free = false) :
    Accounts {b ∈ live | b.1 ≠ heapStart + Seg.span headerSize pre + headerSize}
      (Seg.merge headerSize (pre ++ ⟨x.size, true⟩ :: post)) := by
  have hmem := Seg.mem_inUse_release headerSize (a := heapStart) pre post hx (by decide)
  refine ⟨?_, ?_, fun b hb c hc => h.unique b hb.1 c hc.1⟩
  · rintro b ⟨hb, hne⟩
    obtain ⟨size, hle, hin⟩ := h.sized b hb
    rw [Seg.inUse_merge]
    exact ⟨size, hle, (hmem _).2 ⟨hin, fun e => hne (congrArg Prod.fst e)⟩⟩
  · intro c hc
    rw [Seg.inUse_merge] at hc
    obtain ⟨hin, hne⟩ := (hmem c).1 hc
    obtain ⟨n, hn⟩ := h.owned c hin
    refine ⟨n, hn, fun e => hne ?_⟩
    refine Seg.inUse_unique headerSize (by decide) hin ?_ e
    rw [Seg.inUse_append, Seg.inUse_cons_used headerSize hx]
    exact List.mem_append_right _ List.mem_cons_self

end Accounts

/-! ## The heap as a system -/

/-- The heap and its live allocations. -/
structure HeapSystem (σ : Type) where
  heap : HeapState σ
  live : Set (ℕ × ℕ)

/-- What can happen to the heap. -/
inductive HeapEvent (σ : Type)
  | kmalloc (n : ℕ)
  | kfree (ptr : ℕ)
  /-- Owners write bytes of their own payloads; `m` is the memory afterwards. -/
  | write (m : Mem)
  /-- The frame allocator and the page tables change behind the heap. -/
  | backing (e : σ)

/-- The address lies in the payload of a live allocation. -/
def InOwnPayload (live : Set (ℕ × ℕ)) (a : ℕ) : Prop := ∃ b ∈ live, b.1 ≤ a ∧ a < b.1 + b.2

/-- One step of the heap system. -/
inductive HeapStep (B : Backing σ) : HeapEvent σ → HeapSystem σ → HeapSystem σ → Prop
  | kmalloc {s : HeapState σ} {live : Set (ℕ × ℕ)} {n p : ℕ} {t : HeapState σ}
      (h : run (heapAct B) (kmalloc n) s = some (p, t)) :
      HeapStep B (.kmalloc n) ⟨s, live⟩ ⟨t, if p = 0 then live else insert (p, n) live⟩
  | kfree {s : HeapState σ} {live : Set (ℕ × ℕ)} {ptr r : ℕ} {t : HeapState σ}
      (h : run (heapAct B) (kfree ptr) s = some (r, t)) :
      HeapStep B (.kfree ptr) ⟨s, live⟩ ⟨t, {b ∈ live | b.1 ≠ ptr}⟩
  | write {s : HeapState σ} {live : Set (ℕ × ℕ)} {m : Mem}
      (h : ∀ a, ¬ InOwnPayload live a → m a = s.mem a) :
      HeapStep B (.write m) ⟨s, live⟩ ⟨s.setMem m, live⟩
  | backing {s : HeapState σ} {live : Set (ℕ × ℕ)} {e : σ} :
      HeapStep B (.backing e) ⟨s, live⟩ ⟨{ s with env := e }, live⟩

/-- The system right after a successful `heap_init`, over any memory and backing. -/
def HeapStarted (B : Backing σ) (p : HeapSystem σ) : Prop :=
  (∃ m e, run (heapAct B) heapInit (.zeroed m e) = some ((), p.heap)) ∧ p.heap.ready = 1 ∧
    p.live = ∅

/-- The states reached by steps that `Allowed` admits. -/
def HeapReach (B : Backing σ) (Allowed : HeapSystem σ → HeapEvent σ → Prop) : HeapSystem σ → Prop :=
  Reach (HeapStarted B) fun p q => ∃ c, Allowed p c ∧ HeapStep B c p q

/-- **The heap's invariant.** -/
structure HeapInv (p : HeapSystem σ) (l : List Seg) : Prop where
  tiled : Tiled p.heap l
  accounts : Accounts p.live l

/-! ## `heap_init` -/

/-- The heap's state when `heap_init` starts to map it. -/
def heapEmpty (m : Mem) (e : σ) : HeapState σ := { HeapState.zeroed m e with brk := heapStart }

/-- The pages mapped up front. -/
abbrev initialPages : ℕ := 16

/-- **`heap_init`** makes one free block of the pages it maps, or leaves the heap not ready. -/
theorem run_heapInit (B : Backing σ) (m : Mem) (e : σ) :
    ∃ t, run (heapAct B) heapInit (.zeroed m e) = some ((), t) ∧
      t.env = (mapPages B initialPages heapStart (heapEmpty m e)).2.env ∧
      (t.ready = 0 ∧ t.brk = heapStart ∨
        t.ready = 1 ∧ (mapPages B initialPages heapStart (heapEmpty m e)).1 = initialPages ∧
          t.brk = heapStart + initialPages * pageSize) ∧
      (t.ready = 1 → Tiled t [freshBlock initialPages] ∧ HeadersOnly [heapStart]
        (mapPages B initialPages heapStart (heapEmpty m e)).2.mem t.mem) := by
  have hpages : roundPages heapInitial = initialPages * pageSize := by decide
  obtain ⟨-, hbrk, hready, -⟩ := (mapPages_spec (B := B) initialPages heapStart (heapEmpty m e)).1
  have hceil : heapStart + initialPages * pageSize ≤ heapStart + heapMax := by decide
  set g := (mapPages B initialPages heapStart (heapEmpty m e)).2
  by_cases hall : (mapPages B initialPages heapStart (heapEmpty m e)).1 = initialPages
  · have hgrow := runs_growMapping_granted (s := heapEmpty m e) hpages le_rfl hceil hall
    have hroom : Room heapStart (heapStart + heapMax) heapStart := ⟨le_rfl, by decide, by decide⟩
    have hsize : sub32 (sub32 (heapStart + initialPages * pageSize) heapStart) headerSize =
        (freshBlock initialPages).size := by decide
    set m' := IsHeader.put g.mem heapStart (freshBlock initialPages) 0
    have hheader : IsHeader m' heapStart (freshBlock initialPages) 0 :=
      IsHeader.of_put g.mem heapStart (freshBlock initialPages) (by decide) (by decide)
    have hrun : Runs (heapAct B) (InWindow heapStart (heapStart + heapMax)) heapInit (.zeroed m e)
        () ⟨m', heapStart, heapStart + initialPages * pageSize, 1, g.env, g.out⟩ := by
      rw [heapInit, runs_setBrk]
      refine hgrow.bind ?_
      rw [if_neg Nat.one_ne_zero, runs_setHead, runs_getHead, runs_setMagic hroom, runs_getBrk]
      simp only [HeapState.setMem_brk, heapEmpty, hsize]
      rw [runs_setSize hroom, runs_setNext hroom, runs_setFree hroom, runs_setReady]
      exact runs_ret
    refine ⟨_, hrun.1, rfl, Or.inr ⟨rfl, hall, rfl⟩,
      fun _ => ⟨⟨rfl, rfl, ⟨hheader, trivial⟩, by simp, rfl, ?_,
      List.isChain_singleton _, Nat.dvd_add (by decide) (Nat.dvd_mul_left _ _), hceil⟩,
      fun y hy => ?_⟩⟩
    · simp only [List.mem_singleton, forall_eq, PayloadSize]
      decide
    · exact IsHeader.put_apply_of_disjoint _ _ _ (hy heapStart List.mem_cons_self)
  · have hlt := Nat.lt_of_le_of_ne (mapPages_le _ _ _) hall
    have hgrow := runs_growMapping_refused (s := heapEmpty m e) hpages le_rfl
      (show u32 (heapStart + initialPages * pageSize) ≤ heapStart + heapMax by decide) hlt
      ((Nat.add_le_add_left (Nat.mul_le_mul_right pageSize hlt.le) _).trans hceil)
    have hrun : Runs (heapAct B) (InWindow heapStart (heapStart + heapMax)) heapInit
      (.zeroed m e) ()
        { g with out := g.out ++ [.str "FATAL: could not map the kernel heap.\n"] } := by
      rw [heapInit, runs_setBrk]
      refine hgrow.bind ?_
      rw [if_pos rfl, runs_print]
      exact runs_ret
    exact ⟨_, hrun.1, rfl, Or.inl ⟨hready, hbrk⟩,
      fun h => absurd (hready.symm.trans h) Nat.zero_ne_one⟩

/-! ## Every step keeps the invariant -/

namespace HeapInv

variable {s t : HeapState σ} {live : Set (ℕ × ℕ)} {l l' : List Seg} {n p : ℕ}

/-- An allocation keeps the invariant. -/
theorem allocated (h : HeapInv ⟨s, live⟩ l) (hn : PayloadSize (align8 n)) (hle : n ≤ align8 n)
    (ha : Allocated B (align8 n) s l p t l') :
    HeapInv ⟨t, if p = 0 then live else insert (p, n) live⟩ l' := by
  obtain ⟨htiled, hacc⟩ := h
  cases ha with
  | found ht =>
    refine ⟨ht.tiled htiled hn, ?_⟩
    rw [if_neg ht.payload_ne_zero, ht.payload]
    exact hacc.carve ht.fits hle
  | @grown l pre post x p m u t hno hu hl ht =>
    refine ⟨ht.tiled (hl ▸ hu.tiled htiled) hn, ?_⟩
    rw [if_neg ht.payload_ne_zero, ht.payload]
    refine (hacc.congr ?_).carve ht.fits hle
    rw [← hl, Seg.inUse_merge, Seg.inUse_append, Seg.inUse_cons_free headerSize rfl, Seg.inUse_nil,
      List.append_nil]
  | ceiling hno hc => exact ⟨htiled, by rwa [if_pos rfl]⟩
  | refused hno _ hg hw =>
    exact ⟨htiled.mapPages (hw.trans (by decide)), by rwa [if_pos rfl]⟩

theorem kmalloc (h : HeapInv ⟨s, live⟩ l) (h1 : 1 ≤ n) (h2 : n < 2 ^ 31)
    (hw : GrowthInWindow B (align8 n) s)
    (hrun : run (heapAct B) (kmalloc n) s = some (p, t)) :
    ∃ l', HeapInv ⟨t, if p = 0 then live else insert (p, n) live⟩ l' := by
  obtain ⟨p', t', l', hrun', ha⟩ := runs_kmalloc h.tiled h1 h2 hw
  obtain ⟨rfl, rfl⟩ := hrun'.unique hrun
  obtain ⟨hn, hle, -⟩ := payloadSize_align8 h1 h2
  exact ⟨l', h.allocated hn hle ha⟩

/-- Where a live allocation sits in the list. -/
theorem exists_block (h : HeapInv ⟨s, live⟩ l) {b : ℕ × ℕ} (hb : b ∈ live) :
    ∃ pre x post, l = pre ++ x :: post ∧ x.free = false ∧ b.2 ≤ x.size ∧
      b.1 = heapStart + Seg.span headerSize pre + headerSize := by
  obtain ⟨size, hle, hin⟩ := h.accounts.sized b hb
  obtain ⟨pre, x, post, e, hx, hp⟩ := Seg.exists_of_mem_inUse headerSize hin
  obtain ⟨hb, rfl⟩ := Prod.mk.inj hp
  exact ⟨pre, x, post, e, hx, hle, hb⟩

theorem kfree (h : HeapInv ⟨s, live⟩ l) {b : ℕ × ℕ} (hb : b ∈ live) {r : ℕ}
    (hrun : run (heapAct B) (kfree b.1) s = some (r, t)) :
    r = 1 ∧ ∃ l', HeapInv ⟨t, {c ∈ live | c.1 ≠ b.1}⟩ l' := by
  obtain ⟨pre, x, post, rfl, hx, -, hp⟩ := h.exists_block hb
  obtain ⟨m, t', hrun', hr⟩ := runs_kfree (B := B) h.tiled hx
  rw [← hp] at hrun'
  obtain ⟨rfl, rfl⟩ := hrun'.unique hrun
  exact ⟨rfl, _, hr.tiled h.tiled, hp ▸ h.accounts.release hx⟩

/-- An owner's write stays away from the headers. -/
theorem header_of_payload (h : HeapInv ⟨s, live⟩ l) {a b : ℕ} (ha : InOwnPayload live a)
    (hb : b ∈ Seg.starts headerSize heapStart l) : a < b ∨ b + headerSize ≤ a := by
  obtain ⟨c, hc, h1, h2⟩ := ha
  obtain ⟨size, hle, hin⟩ := h.accounts.sized c hc
  have := Seg.inUse_apart_starts headerSize hin hb
  simp only at this
  omega

theorem write (h : HeapInv ⟨s, live⟩ l) {m : Mem}
    (hm : ∀ a, ¬ InOwnPayload live a → m a = s.mem a) :
    HeapInv ⟨s.setMem m, live⟩ l := by
  refine ⟨h.tiled.congr rfl rfl rfl fun b hb y h1 h2 => hm y fun hy => ?_, h.accounts⟩
  have := h.header_of_payload hy hb
  omega

theorem backing (h : HeapInv ⟨s, live⟩ l) (e : σ) : HeapInv ⟨{ s with env := e }, live⟩ l :=
  ⟨h.tiled.congr rfl rfl rfl fun _ _ _ _ _ => rfl, h.accounts⟩

theorem started {q : HeapSystem σ} (h : HeapStarted B q) : HeapInv q [freshBlock initialPages] := by
  obtain ⟨⟨m, e, hrun⟩, hready, hlive⟩ := h
  obtain ⟨t, hrun', -, -, ht⟩ := run_heapInit B m e
  rw [hrun'] at hrun
  obtain ⟨-, rfl⟩ := Prod.mk.inj (Option.some.inj hrun)
  refine ⟨(ht hready).1, ?_, ?_, ?_⟩
  · rw [hlive]; exact fun b hb => absurd hb (Set.notMem_empty b)
  · intro c hc
    rw [Seg.inUse_cons_free headerSize rfl] at hc
    exact absurd hc (List.not_mem_nil)
  · rw [hlive]; exact fun b hb => absurd hb (Set.notMem_empty b)

end HeapInv

/-- The calls of the heap's users: requests of at least one byte and at most the size of the
window, and `kfree` of live pointers. -/
def Requested : HeapSystem σ → HeapEvent σ → Prop
  | _, .kmalloc n => 1 ≤ n ∧ n ≤ heapMax
  | p, .kfree ptr => ∃ b ∈ p.live, b.1 = ptr
  | _, _ => True

/-- The calls with a request of any size, as long as its growth stays in the window. -/
def Windowed (B : Backing σ) : HeapSystem σ → HeapEvent σ → Prop
  | p, .kmalloc n => 1 ≤ n ∧ n < 2 ^ 31 ∧ GrowthInWindow B (align8 n) p.heap
  | p, .kfree ptr => ∃ b ∈ p.live, b.1 = ptr
  | _, _ => True

theorem Requested.windowed {c : HeapEvent σ} {p : HeapSystem σ} {l : List Seg} (h : HeapInv p l)
    (hc : Requested p c) : Windowed B p c := by
  cases c with
  | kmalloc n =>
    exact ⟨hc.1, hc.2.trans_lt (by decide), growthInWindow_of_le h.tiled hc.2⟩
  | kfree ptr => exact hc
  | _ => trivial

/-- **Every step keeps the invariant.** -/
theorem HeapStep.inv {c : HeapEvent σ} {p q : HeapSystem σ} {l : List Seg} (h : HeapInv p l)
    (hc : Windowed B p c) (hs : HeapStep B c p q) : ∃ l', HeapInv q l' := by
  cases hs with
  | kmalloc hrun => exact h.kmalloc hc.1 hc.2.1 hc.2.2 hrun
  | kfree hrun =>
    obtain ⟨b, hb, rfl⟩ := hc
    exact (h.kfree hb hrun).2
  | write ha => exact ⟨l, h.write ha⟩
  | backing => exact ⟨l, h.backing _⟩

/-- **Every reachable state satisfies the invariant.** -/
theorem HeapReach.inv {p : HeapSystem σ} (h : HeapReach B (Windowed B) p) : ∃ l, HeapInv p l :=
  h.invariant (I := fun p => ∃ l, HeapInv p l) (fun _ h0 => ⟨_, HeapInv.started h0⟩)
    fun _ _ _ ⟨_, hl⟩ ⟨_, hc, hs⟩ => hs.inv hl hc

theorem HeapReach.windowed {p : HeapSystem σ} (h : HeapReach B Requested p) :
    HeapReach B (Windowed B) p := by
  induction h with
  | start h0 => exact .start h0
  | next _ hs ih =>
    obtain ⟨l, hl⟩ := HeapReach.inv ih
    obtain ⟨c, hc, hs⟩ := hs
    exact .next ih ⟨c, hc.windowed hl, hs⟩

/-! ## What the invariant means for the bytes -/

/-- Following `next` from `p` visits the blocks at `bs`, in this order, and ends. -/
def Visits (m : Mem) : ℕ → List ℕ → Prop
  | p, [] => p = 0
  | p, b :: bs => p = b ∧ b ≠ 0 ∧ Visits m (m.read32 (b + 8)) bs

/-- The memory determines the blocks that are visited. -/
theorem Visits.unique {m : Mem} {p : ℕ} {bs cs : List ℕ} (h : Visits m p bs) (h' : Visits m p cs) :
    bs = cs := by
  induction bs generalizing p cs with
  | nil =>
    cases cs with
    | nil => rfl
    | cons c cs => exact absurd (h'.1.symm.trans h) h'.2.1
  | cons b bs ih =>
    cases cs with
    | nil => exact absurd (h.1.symm.trans h') h.2.1
    | cons c cs =>
      obtain ⟨rfl, -, h⟩ := h
      obtain ⟨rfl, -, h'⟩ := h'
      rw [ih h h']

/-- `b->size`, in memory. -/
def sizeAt (m : Mem) (b : ℕ) : ℕ := m.read32 (b + 4)

/-- `b->free`, in memory. -/
def FreeAt (m : Mem) (b : ℕ) : Prop := m.read32 (b + 12) ≠ 0

instance (m : Mem) (b : ℕ) : Decidable (FreeAt m b) := inferInstanceAs (Decidable (_ ≠ _))

/-- **The block list in memory**: the headers at `bs` are those visited from `head` on, and their
blocks tile `[heapStart, brk)`, without two free neighbours. -/
structure BlockList (m : Mem) (head brk : ℕ) (bs : List ℕ) : Prop where
  visits : Visits m head bs
  first : bs.head? = some heapStart
  increasing : bs.Pairwise (· < ·)
  aligned : ∀ b ∈ bs, 8 ∣ b
  magic : ∀ b ∈ bs, m.read32 b = blockMagic
  next_header : bs.IsChain fun b c => b + headerSize + sizeAt m b = c
  last_end : ∀ b ∈ bs.getLast?, b + headerSize + sizeAt m b = brk
  merged : bs.IsChain fun b c => ¬ (FreeAt m b ∧ FreeAt m c)

/-- The payload bytes of the free blocks at `bs`. -/
def freeSum (m : Mem) (bs : List ℕ) : ℕ :=
  (bs.map fun b => if FreeAt m b then sizeAt m b else 0).sum

theorem freeSum_cons (m : Mem) (b : ℕ) (bs : List ℕ) :
    freeSum m (b :: bs) = (if FreeAt m b then sizeAt m b else 0) + freeSum m bs :=
  List.sum_cons

theorem IsHeader.freeAt_iff {m : Mem} {b n : ℕ} {x : Seg} (h : IsHeader m b x n) :
    FreeAt m b ↔ x.free = true := by
  unfold FreeAt
  rw [h.free]
  split_ifs with hf <;> simp [hf]

namespace Holds

variable {m : Mem} {a : ℕ} {x : Seg} {l : List Seg}

theorem visits (h : Holds m a l 0) (ha : 0 < a) :
    Visits m (linkTo a l 0) (Seg.starts headerSize a l) := by
  induction l generalizing a with
  | nil => rfl
  | cons x l ih => exact ⟨rfl, ha.ne', h.1.next.symm ▸ ih h.2 (by omega)⟩

theorem aligned (ha : 8 ∣ a) (hl : ∀ x ∈ l, PayloadSize x.size) :
    ∀ b ∈ Seg.starts headerSize a l, 8 ∣ b := by
  induction l generalizing a with
  | nil => simp
  | cons x l ih =>
    obtain ⟨hx, hl⟩ := List.forall_mem_cons.1 hl
    exact List.forall_mem_cons.2
      ⟨ha, ih (Nat.dvd_add (Nat.dvd_add ha (by decide)) hx.1) hl⟩

theorem magic (h : Holds m a l 0) : ∀ b ∈ Seg.starts headerSize a l, m.read32 b = blockMagic :=
  fun _ hb => by
    obtain ⟨_, _, _, -, -, hy⟩ := h.header_of_mem hb
    exact hy.magic

theorem next_header (h : Holds m a l 0) :
    (Seg.starts headerSize a l).IsChain fun b c => b + headerSize + sizeAt m b = c := by
  induction l generalizing a with
  | nil => exact List.isChain_nil
  | cons x l ih =>
    cases l with
    | nil => exact List.isChain_singleton _
    | cons y l =>
      refine List.isChain_cons_cons.2 ⟨?_, ih h.2⟩
      rw [sizeAt, h.1.size]

theorem last_end (h : Holds m a l 0) : ∀ b ∈ (Seg.starts headerSize a l).getLast?,
    b + headerSize + sizeAt m b = a + Seg.span headerSize l := by
  induction l generalizing a with
  | nil => simp
  | cons x l ih =>
    cases l with
    | nil =>
      intro b hb
      obtain rfl : a = b := by simpa using hb
      rw [sizeAt, h.1.size, Seg.span_cons, Seg.span_nil, Nat.add_zero, Nat.add_assoc]
    | cons y l =>
      intro b hb
      rw [Seg.starts_cons, Seg.starts_cons, List.getLast?_cons_cons] at hb
      rw [ih h.2 b hb, Seg.span_cons headerSize x]
      omega

theorem merged (h : Holds m a l 0) (hl : Seg.NoFreeNeighbours l) :
    (Seg.starts headerSize a l).IsChain fun b c => ¬ (FreeAt m b ∧ FreeAt m c) := by
  induction l generalizing a with
  | nil => exact List.isChain_nil
  | cons x l ih =>
    cases l with
    | nil => exact List.isChain_singleton _
    | cons y l =>
      obtain ⟨hxy, hl⟩ := List.isChain_cons_cons.1 hl
      refine List.isChain_cons_cons.2 ⟨?_, ih h.2 hl⟩
      rwa [h.1.freeAt_iff, h.2.1.freeAt_iff]

theorem freeSum (h : Holds m a l 0) :
    freeSum m (Seg.starts headerSize a l) = Seg.freeBytes l := by
  induction l generalizing a with
  | nil => rfl
  | cons x l ih =>
    rw [Seg.starts_cons, freeSum_cons, ih h.2, Seg.freeBytes, sizeAt, h.1.size]
    simp only [h.1.freeAt_iff]

end Holds

theorem starts_pairwise (a : ℕ) (l : List Seg) : (Seg.starts headerSize a l).Pairwise (· < ·) := by
  induction l generalizing a with
  | nil => exact List.Pairwise.nil
  | cons x l ih =>
    refine List.pairwise_cons.2 ⟨fun b hb => ?_, ih _⟩
    have := (Seg.starts_bounds headerSize hb).1
    rw [headerSize_eq] at this
    omega

theorem Tiled.blockList {s : HeapState σ} {l : List Seg} (h : Tiled s l) :
    BlockList s.mem s.head s.brk (Seg.starts headerSize heapStart l) := by
  obtain ⟨x, l', rfl⟩ := List.exists_cons_of_ne_nil h.ne_nil
  exact ⟨h.head ▸ h.headers.visits (by decide), rfl, starts_pairwise _ _,
    Holds.aligned (by decide) h.sizes, h.headers.magic, h.headers.next_header,
    h.tiles ▸ h.headers.last_end, h.headers.merged h.merged⟩

/-- The block of a live allocation. -/
theorem HeapInv.live_block {p : HeapSystem σ} {l : List Seg} (h : HeapInv p l) {b : ℕ × ℕ}
    (hb : b ∈ p.live) : b.1 - headerSize ∈ Seg.starts headerSize heapStart l ∧ headerSize ≤ b.1 ∧
      ¬ FreeAt p.heap.mem (b.1 - headerSize) ∧ b.2 ≤ sizeAt p.heap.mem (b.1 - headerSize) := by
  obtain ⟨pre, x, post, rfl, hx, hle, hp⟩ := HeapInv.exists_block h hb
  obtain ⟨-, hhead, -⟩ := Holds.append_iff.1 h.tiled.headers
  rw [hp, Nat.add_sub_cancel]
  refine ⟨?_, Nat.le_add_left _ _, ?_, ?_⟩
  · rw [Seg.starts_append]
    exact List.mem_append_right _ List.mem_cons_self
  · rw [hhead.freeAt_iff, hx]
    exact Bool.false_ne_true
  · rwa [sizeAt, hhead.size]

/-- The allocation of a block in use. -/
theorem HeapInv.used_block {p : HeapSystem σ} {l : List Seg} (h : HeapInv p l) {b : ℕ}
    (hb : b ∈ Seg.starts headerSize heapStart l) (hu : ¬ FreeAt p.heap.mem b) :
    ∃ n, (b + headerSize, n) ∈ p.live := by
  obtain ⟨pre, x, post, rfl, rfl, hx⟩ := h.tiled.headers.header_of_mem hb
  rw [hx.freeAt_iff, Bool.not_eq_true] at hu
  refine h.accounts.owned (_, x.size) ?_
  rw [Seg.inUse_append, Seg.inUse_cons_used headerSize hu]
  exact List.mem_append_right _ List.mem_cons_self

/-- **The heap invariant.** In every state reached from a successful `heap_init` the block list in
memory tiles `[heapStart, brk)` with no two free neighbours, `brk` is a page boundary below the
ceiling, every live allocation has a block of its own in use, the payloads of live allocations do
not overlap, `heap_free` counts the free payload bytes, and the calls return. -/
theorem heap_invariant {p : HeapSystem σ} (h : HeapReach B Requested p) :
    ∃ bs, BlockList p.heap.mem p.heap.head p.heap.brk bs ∧
      pageSize ∣ p.heap.brk ∧ p.heap.brk ≤ heapStart + heapMax ∧
      (∀ b ∈ p.live, b.1 - headerSize ∈ bs ∧ headerSize ≤ b.1 ∧
        ¬ FreeAt p.heap.mem (b.1 - headerSize) ∧ b.2 ≤ sizeAt p.heap.mem (b.1 - headerSize)) ∧
      (∀ b ∈ bs, ¬ FreeAt p.heap.mem b → ∃ n, (b + headerSize, n) ∈ p.live) ∧
      (∀ b ∈ p.live, ∀ c ∈ p.live, b ≠ c → b.1 + b.2 ≤ c.1 ∨ c.1 + c.2 ≤ b.1) ∧
      (∃ used, run (heapAct B) heapUsed p.heap = some (used, p.heap) ∧
        used ≤ p.heap.brk - heapStart ∧ used + freeSum p.heap.mem bs = p.heap.brk - heapStart) ∧
      run (heapAct B) heapFree p.heap = some (freeSum p.heap.mem bs, p.heap) ∧
      (∀ n, 1 ≤ n → n ≤ heapMax → ∃ ptr t, run (heapAct B) (kmalloc n) p.heap = some (ptr, t)) ∧
      ∀ b ∈ p.live, ∃ t, run (heapAct B) (kfree b.1) p.heap = some (1, t) := by
  obtain ⟨l, htiled, hacc⟩ := h.windowed.inv
  have hinv : HeapInv ⟨p.heap, p.live⟩ l := ⟨htiled, hacc⟩
  obtain ⟨hused, hfree⟩ := runs_heapFree (B := B) htiled
  have hsum := Seg.usedBytes_add_freeBytes headerSize l
  have htiles := htiled.tiles
  refine ⟨_, htiled.blockList, htiled.page, htiled.ceiling, fun b hb => hinv.live_block hb,
    fun b hb hu => hinv.used_block hb hu, fun b hb c hc => hacc.disjoint hb hc,
    ⟨_, hused.1, ?_, ?_⟩, ?_, fun n h1 h2 => ?_, fun b hb => ?_⟩
  · omega
  · rw [htiled.headers.freeSum]
    omega
  · rw [htiled.headers.freeSum]
    exact hfree.1
  · obtain ⟨ptr, t, -, hrun, -⟩ := runs_kmalloc (B := B) htiled h1 (h2.trans_lt (by decide))
      (growthInWindow_of_le htiled h2)
    exact ⟨ptr, t, hrun.1⟩
  · obtain ⟨pre, x, post, rfl, hx, -, hp⟩ := hinv.exists_block hb
    obtain ⟨-, t, hrun, -⟩ := runs_kfree (B := B) htiled hx
    exact ⟨t, hp ▸ hrun.1⟩

/-- A backing that hands out one frame after the other and maps every page; the frames hold
zeros. -/
def bumpBacking : Backing ℕ where
  pmmAllocFrame e := (pageSize * (e + 1), e + 1)
  pmmFreeFrame _ e := e
  pagingMap _ _ _ e := (1, e)
  physByte _ _ := 0

/-- A fresh heap over zeroed memory. -/
@[irreducible] def freshHeap :
    HeapState ℕ := after (heapAct bumpBacking) heapInit (.zeroed (fun _ => 0) 0)

theorem run_freshHeap :
    run (heapAct bumpBacking) heapInit (.zeroed (fun _ => 0) 0) = some ((), freshHeap) := by
  unfold freshHeap
  exact run_eq_after _ (by decide +kernel)

theorem heapStarted_freshHeap : HeapStarted bumpBacking ⟨freshHeap, ∅⟩ :=
  ⟨⟨_, _, run_freshHeap⟩, by decide +kernel, rfl⟩

/-- A fresh heap with one block of eight bytes. -/
@[irreducible] def oneBlockHeap : HeapState ℕ := after (heapAct bumpBacking) (kmalloc 8) freshHeap

theorem run_oneBlockHeap :
    run (heapAct bumpBacking) (kmalloc 8) freshHeap = some (heapStart + 16, oneBlockHeap) := by
  unfold oneBlockHeap
  exact run_eq_after _ (by decide +kernel)

/-- A second block of eight bytes. -/
@[irreducible] def twoBlockHeap : HeapState ℕ := after (heapAct bumpBacking)
    (kmalloc 8) oneBlockHeap

theorem run_twoBlockHeap :
    run (heapAct bumpBacking) (kmalloc 8) oneBlockHeap = some (heapStart + 40, twoBlockHeap) := by
  unfold twoBlockHeap
  exact run_eq_after _ (by decide +kernel)

/-- The second block has been freed again and merged with the rest. -/
@[irreducible] def secondFreedHeap : HeapState ℕ :=
  after (heapAct bumpBacking) (kfree (heapStart + 40)) twoBlockHeap

theorem run_secondFreedHeap : run (heapAct bumpBacking) (kfree (heapStart + 40)) twoBlockHeap =
    some (1, secondFreedHeap) := by
  unfold secondFreedHeap
  exact run_eq_after _ (by decide +kernel)

/-- Two blocks have been allocated and the second one freed: the first is live, and the rest
free. -/
theorem heap_invariant_bump : ∃ live bs, HeapReach bumpBacking Requested ⟨secondFreedHeap, live⟩ ∧
    (heapStart + 16, 8) ∈ live ∧ (heapStart + 40, 8) ∉ live ∧
    BlockList secondFreedHeap.mem secondFreedHeap.head secondFreedHeap.brk bs ∧
    heapStart ∈ bs ∧ ¬ FreeAt secondFreedHeap.mem heapStart ∧
    run (heapAct bumpBacking) heapFree secondFreedHeap =
      some (freeSum secondFreedHeap.mem bs, secondFreedHeap) ∧
    ∃ t, run (heapAct bumpBacking) (kfree (heapStart + 16)) secondFreedHeap = some (1, t) := by
  have h₁ : HeapReach bumpBacking Requested ⟨oneBlockHeap, insert (heapStart + 16, 8) ∅⟩ :=
    .next (.start heapStarted_freshHeap)
      ⟨.kmalloc 8, ⟨by decide, by decide⟩, .kmalloc run_oneBlockHeap⟩
  have h₂ : HeapReach bumpBacking Requested
      ⟨twoBlockHeap, insert (heapStart + 40, 8) (insert (heapStart + 16, 8) ∅)⟩ :=
    .next h₁ ⟨.kmalloc 8, ⟨by decide, by decide⟩, .kmalloc run_twoBlockHeap⟩
  have h₃ :=
    Reach.next h₂ ⟨.kfree (heapStart + 40), ⟨_, Or.inl rfl, rfl⟩, .kfree run_secondFreedHeap⟩
  have hmem : (heapStart + 16, 8) ∈
      {b ∈ insert (heapStart + 40, 8) (insert (heapStart + 16, 8) (∅ : Set (ℕ × ℕ))) |
        b.1 ≠ heapStart + 40} := ⟨Or.inr (Or.inl rfl), by decide⟩
  obtain ⟨bs, hbs, -, -, hlive, -, -, -, hfree, -, hkfree⟩ := heap_invariant h₃
  obtain ⟨hblock, -, hused, -⟩ := hlive _ hmem
  exact ⟨_, bs, h₃, hmem, fun h => h.2 rfl, hbs, hblock, hused, hfree, hkfree _ hmem⟩

end JarvisOS
