import Mathlib.Data.Fin.Tuple.Basic
import Mathlib.Data.Nat.Bitwise
import Mathlib.Logic.Function.Basic
import Mathlib.Order.Fin.Basic

/-!
# A pair of interrupt controllers

The 8259A controller: its request, service and mask registers, the four words of its initialization
and the end of an interrupt. The output of a second controller is wired to line 2 of the first. When
the processor acknowledges an interrupt, the first controller takes its request of highest priority;
if this is line 2, the second controller takes one of its own and names the vector. Lines may drop
at any time, also between the two pulses of an acknowledgement: then the vector is that of line 7
and nothing is in service.

`Controller.request_eq_some` says which request is passed on, `Pair.acknowledge_of_idle` what an
acknowledgement does when nothing is in service, and `Pair.Placed.acknowledge` which vectors it can
name otherwise.
-/

namespace Foundations

/-! ## One controller -/

/-- The initialization word that the controller waits for. -/
inductive Setup
  | ready
  | icw2 (single icw4 : Bool)
  | icw3 (icw4 : Bool)
  | icw4
  deriving DecidableEq

/-- A controller with eight request lines, line 0 first in priority. -/
@[ext] structure Controller where
  /-- Requests that wait. -/
  irr : Fin 8 → Bool
  /-- Interrupts in service. -/
  isr : Fin 8 → Bool
  /-- Lines masked. -/
  imr : Fin 8 → Bool
  /-- The vector of line 0. -/
  base : ℕ
  /-- The lines with a controller behind them, or the line that the controller itself is behind. -/
  cascade : ℕ
  autoEoi : Bool
  setup : Setup

namespace Controller

/-- No line. -/
abbrev noLine : Fin 8 → Bool := fun _ => false

/-- The end of the interrupt in service that is first in priority. -/
def eoi (c : Controller) : Controller :=
  { c with isr := fun i => c.isr i && decide (∃ j < i, c.isr j) }

/-- A write to the command port: the first initialization word, or the end of an interrupt.
Rotation, specific ends and the special modes are not modelled. -/
def command (v : ℕ) (c : Controller) : Controller :=
  if v.testBit 4 then
    { c with
      irr := noLine
      imr := noLine
      autoEoi := false
      setup := .icw2 (v.testBit 1) (v.testBit 0) }
  else if v / 8 = 4 then c.eoi
  else c

/-- A write to the data port: the next initialization word, or the mask. -/
def data (v : ℕ) (c : Controller) : Controller :=
  match c.setup with
  | .ready => { c with imr := fun i => v.testBit i }
  | .icw2 single icw4 =>
    { c with
      base := v / 8 * 8
      setup := if single then if icw4 then .icw4 else .ready else .icw3 icw4 }
  | .icw3 icw4 => { c with cascade := v, setup := if icw4 then .icw4 else .ready }
  | .icw4 => { c with autoEoi := v.testBit 1, setup := .ready }

/-- The request passed on to the processor: the first that is not masked, unless an interrupt of the
same or of a higher priority is in service. -/
def request (c : Controller) : Option (Fin 8) :=
  (Fin.find? fun i => c.irr i && !c.imr i).filter fun i => ∀ j ≤ i, !c.isr j

/-- The request of a line goes into service. -/
def take (i : Fin 8) (c : Controller) : Controller :=
  { c with
    irr := Function.update c.irr i false
    isr := if c.autoEoi then c.isr else Function.update c.isr i true }

/-- The controller without its requests. -/
def core (c : Controller) : Controller := { c with irr := noLine }

variable {c : Controller} {i : Fin 8}

/-- **The request that is passed on.** -/
theorem request_eq_some : c.request = some i ↔
    c.irr i ∧ ¬ c.imr i ∧ (∀ j < i, c.irr j → c.imr j) ∧ ∀ j ≤ i, ¬ c.isr j := by
  simp [request, Option.filter_eq_some_iff, and_assoc]

theorem request_eq_none (h : ∀ j, ¬ c.isr j) : c.request = none ↔ ∀ i, c.irr i → c.imr i := by
  have hfind : c.request = Fin.find? fun i => c.irr i && !c.imr i := by
    unfold request
    cases Fin.find? fun i => c.irr i && !c.imr i with
    | none => rfl
    | some i => simp [h]
  rw [hfind, Fin.find?_eq_none_iff]
  simp

/-- The end of the only interrupt in service. -/
theorem eoi_isr_of_unique (h : ∀ i j, c.isr i → c.isr j → i = j) : c.eoi.isr = noLine := by
  funext i
  simp only [eoi, Bool.and_eq_false_iff, decide_eq_false_iff_not]
  by_cases hi : c.isr i
  · exact Or.inr fun ⟨j, hj, hin⟩ => hj.ne (h j i hin hi)
  · exact Or.inl (by simpa using hi)

@[simp] theorem core_core : c.core.core = c.core := rfl

/-- What a write does to a controller does not depend on its requests. -/
theorem core_command (v : ℕ) : (c.command v).core = (c.core.command v).core := by
  unfold command
  split_ifs <;> rfl

theorem core_data (v : ℕ) : (c.data v).core = (c.core.data v).core := by
  obtain ⟨irr, isr, imr, base, cascade, autoEoi, setup⟩ := c
  cases setup <;> rfl

/-- A controller that has been initialized, with nothing in service and no line masked. -/
def idle (irr : Fin 8 → Bool) (base cascade : ℕ) : Controller where
  irr := irr
  isr := noLine
  imr := noLine
  base := base
  cascade := cascade
  autoEoi := false
  setup := .ready

section Idle

variable {irr : Fin 8 → Bool} {base cascade : ℕ}

theorem eq_idle_of_core (h : c.core = idle noLine base cascade) : c = idle c.irr base cascade := by
  obtain ⟨irr, isr, imr, base, cascade, autoEoi, setup⟩ := c
  cases h
  rfl

/-- At rest the first request is passed on. -/
theorem idle_request_eq_some : (idle irr base cascade).request = some i ↔ irr i ∧
    ∀ j < i, ¬ irr j := by
  simp [request_eq_some, idle]

theorem idle_request_eq_none : (idle irr base cascade).request = none ↔ ∀ i, ¬ irr i := by
  rw [request_eq_none (by simp [idle])]
  simp [idle]

/-- One interrupt comes into service and ends. -/
theorem core_eoi_take_idle :
    ((idle irr base cascade).take i).eoi.core = idle noLine base cascade := by
  have hserv : ((idle irr base cascade).take i).eoi.isr = noLine := by
    refine eoi_isr_of_unique fun j k hj hk => ?_
    simp only [take, idle, Bool.false_eq_true, if_false, Function.update_apply] at hj hk
    split_ifs at hj hk with h1 h2
    exact h1.trans h2.symm
  exact Controller.ext rfl hserv rfl rfl rfl rfl rfl

theorem core_eoi_idle : (idle irr base cascade).eoi.core = idle noLine base cascade := rfl

end Idle

end Controller

/-! ## Two controllers -/

/-- Two controllers, the second behind line 2 of the first. -/
@[ext] structure Pair where
  master : Controller
  slave : Controller

/-- The lines of the pair. -/
inductive PairLine
  | master (i : Fin 8)
  | slave (i : Fin 8)
  deriving DecidableEq

namespace PairLine

/-- The line with number `n`, counted through both controllers. -/
def irq (n : ℕ) : PairLine := if n < 8 then master (Fin.ofNat 8 n) else slave (Fin.ofNat 8 n)

/-- The vector of a line. -/
def vector (base base' : ℕ) : PairLine → ℕ
  | master i => base + i
  | slave i => base' + i

/-- The place of a line in the order of priority; the lines of the second controller stand in the
place of line 2. -/
def rank : PairLine → ℕ
  | master i => if i ≤ 2 then i else 7 + i
  | slave i => 2 + i

/-- The line drops, when those of the second controller in `drop` do. -/
def dropped (drop : Fin 8 → Bool) : PairLine → Bool
  | master _ => false
  | slave i => drop i

end PairLine

/-- The answer to an acknowledgement: the vector, and the line whose request has been taken, if
there was one. -/
structure Answer where
  vector : ℕ
  line : Option PairLine
  deriving DecidableEq

namespace Pair

/-- The line has a request that waits. -/
def waits (p : Pair) : PairLine → Bool
  | .master i => p.master.irr i
  | .slave i => p.slave.irr i

/-- Raise or drop a line. -/
def setLine (p : Pair) (k : PairLine) (b : Bool) : Pair :=
  match k with
  | .master i => { p with master := { p.master with irr := Function.update p.master.irr i b } }
  | .slave i => { p with slave := { p.slave with irr := Function.update p.slave.irr i b } }

/-- The first controller, with the output of the second on its line 2. -/
def wired (p : Pair) : Controller :=
  { p.master with irr := Function.update p.master.irr 2 p.slave.request.isSome }

/-- The second pulse of an acknowledgement, with line `i` of the first controller in service: the
controller behind this line names the vector, or the first controller does. -/
def vector (i : Fin 8) (p : Pair) : Option (Answer × Pair) :=
  if p.master.cascade.testBit i then
    if p.slave.cascade = i then
      match p.slave.request with
      | some j => some (⟨p.slave.base + j, some (.slave j)⟩, { p with slave := p.slave.take j })
      | none => some (⟨p.slave.base + 7, none⟩, p)
    else none
  else some (⟨p.master.base + i, some (.master i)⟩, p)

/-- The processor acknowledges an interrupt; the lines of the second controller in `drop` drop
between the two pulses. `none` is an acknowledgement that no controller answers. -/
def acknowledge (drop : Fin 8 → Bool) (p : Pair) : Option (Answer × Pair) :=
  match p.wired.request with
  | none => some (⟨p.master.base + 7, none⟩, p)
  | some i => vector i
    { master := p.master.take i
      slave := { p.slave with irr := fun j => p.slave.irr j && !drop j } }

/-- The pair without its requests. -/
def core (p : Pair) : Pair := ⟨p.master.core, p.slave.core⟩

variable {p q : Pair} {drop : Fin 8 → Bool}

@[simp] theorem core_core : p.core.core = p.core := rfl

theorem core_setLine (k : PairLine) (b : Bool) : (p.setLine k b).core = p.core := by
  cases k <;> rfl

theorem waits_setLine (k k' : PairLine) (b : Bool) :
    (p.setLine k b).waits k' = if k' = k then b else p.waits k' := by
  cases k <;> cases k' <;> simp [setLine, waits, Function.update_apply]

/-! ## Acknowledgements -/

/-- The pair at rest. -/
def idle (base base' : ℕ) : Pair :=
  ⟨.idle Controller.noLine base 4, .idle Controller.noLine base' 2⟩

/-- What an acknowledgement of `p` at rest answers and leaves. -/
structure Answered (base base' : ℕ) (drop : Fin 8 → Bool) (p : Pair) (a : Answer) (q : Pair) :
    Prop where
  /-- There was no request, or it has dropped. -/
  spurious : a.line = none → (a.vector = base + 7 ∨ a.vector = base' + 7) ∧
    ((∀ j, ¬ drop j) → ∀ k, k ≠ .master 2 → ¬ p.waits k)
  vector : ∀ k, a.line = some k → a.vector = k.vector base base' ∧ k ≠ .master 2 ∧ p.waits k
  /-- The line taken has not dropped. -/
  kept : ∀ k, a.line = some k → k.dropped drop = false
  /-- A line before the one taken has dropped. -/
  first : ∀ k k', a.line = some k → k' ≠ .master 2 → p.waits k' → k'.rank < k.rank → k'.dropped drop
  waits : ∀ k, k ≠ .master 2 → q.waits k =
    (p.waits k && !k.dropped drop && decide (a.line ≠ some k))
  /-- The interrupt ends with one word to the first controller, and one to the second before it if
  the vector is one of the second. -/
  ends : (Pair.mk q.master.eoi (if base' ≤ a.vector then q.slave.eoi else q.slave)).core =
    idle base base'

/-- The second controller is behind line 2. -/
theorem vector_two (h : p.master.cascade = 4) (h' : p.slave.cascade = 2) : vector 2 p =
    match p.slave.request with
    | some j => some (⟨p.slave.base + j, some (.slave j)⟩, { p with slave := p.slave.take j })
    | none => some (⟨p.slave.base + 7, none⟩, p) := by
  unfold vector
  rw [h, h', if_pos (by decide), if_pos (show 2 = ((2 : Fin 8) : ℕ) from rfl)]

theorem vector_of_ne (h : p.master.cascade = 4) {i : Fin 8} (hi : i ≠ 2) :
    vector i p = some (⟨p.master.base + i, some (.master i)⟩, p) := by
  unfold vector
  rw [h, if_neg]
  revert hi
  revert i
  decide

section Idle

variable {r r' : Fin 8 → Bool} {base base' : ℕ}

/-- Nothing to take. -/
theorem answered_none (hle : base + 8 ≤ base')
    (hnone : ∀ k, k ≠ .master 2 → ¬ (Pair.mk (.idle r base 4) (.idle r' base' 2)).waits k) :
    Answered base base' drop ⟨.idle r base 4, .idle r' base' 2⟩ ⟨base + 7, none⟩
      ⟨.idle r base 4, .idle r' base' 2⟩ := by
  refine ⟨fun _ => ⟨Or.inl rfl, fun _ => hnone⟩, nofun, nofun, nofun, fun k hk => ?_, ?_⟩
  · have := hnone k hk
    simp_all
  · show (Pair.mk _ (if base' ≤ base + 7 then _ else _)).core = _
    rw [if_neg (by omega)]
    rfl

/-- The request of the second controller has dropped. -/
theorem answered_dropped (hsome : ∃ j, r' j) (hnone : ∀ j, ¬ (r' j && !drop j)) :
    Answered base base' drop ⟨.idle r base 4, .idle r' base' 2⟩ ⟨base' + 7, none⟩
      ⟨(Controller.idle r base 4).take 2, .idle (fun j => r' j && !drop j) base' 2⟩ := by
  refine ⟨fun _ => ⟨Or.inr rfl, fun hno => ?_⟩, nofun, nofun, nofun, ?_, ?_⟩
  · obtain ⟨j, hj⟩ := hsome
    simp_all
  · rintro (k | k) hk
    · have hk : k ≠ 2 := fun e => hk (congrArg PairLine.master e)
      simp [waits, Controller.take, Controller.idle, PairLine.dropped, hk]
    · simp [waits, Controller.idle, PairLine.dropped]
  · show (Pair.mk _ (if base' ≤ base' + 7 then _ else _)).core = _
    rw [if_pos (by omega)]
    exact Pair.ext Controller.core_eoi_take_idle Controller.core_eoi_idle

/-- A line of the second controller. -/
theorem answered_slave {j : Fin 8} (hlow : ∀ i, i < 2 → ¬ r i) (hj : (r' j && !drop j) = true)
    (hbefore : ∀ k < j, ¬ (r' k && !drop k)) :
    Answered base base' drop ⟨.idle r base 4, .idle r' base' 2⟩ ⟨base' + j, some (.slave j)⟩
      ⟨(Controller.idle r base 4).take 2,
        (Controller.idle (fun j => r' j && !drop j) base' 2).take j⟩ := by
  refine ⟨nofun, ?_, ?_, ?_, ?_, ?_⟩
  · rintro _ ⟨rfl⟩
    exact ⟨rfl, nofun, (Bool.and_eq_true_iff.1 hj).1⟩
  · rintro _ ⟨rfl⟩
    show drop j = false
    simpa using (Bool.and_eq_true_iff.1 hj).2
  · rintro _ (k | k) ⟨rfl⟩ hk hw hrank
    · have hk : k ≠ 2 := fun e => hk (congrArg PairLine.master e)
      refine absurd hw (hlow k ?_)
      simp only [PairLine.rank] at hrank
      split_ifs at hrank <;> omega
    · have hkj : k < j := by
        simp only [PairLine.rank] at hrank
        omega
      have hdrop := hbefore k hkj
      have hw : r' k = true := hw
      show drop k = true
      simpa [hw] using hdrop
  · rintro (k | k) hk
    · have hk : k ≠ 2 := fun e => hk (congrArg PairLine.master e)
      simp [waits, Controller.take, Controller.idle, PairLine.dropped, hk]
    · by_cases hkj : k = j
      · simp [waits, Controller.take, Controller.idle, hkj]
      · simp [waits, Controller.take, Controller.idle, PairLine.dropped, hkj, Ne.symm hkj]
  · show (Pair.mk _ (if base' ≤ base' + j then _ else _)).core = _
    rw [if_pos (by omega)]
    exact Pair.ext Controller.core_eoi_take_idle Controller.core_eoi_take_idle

/-- A line of the first controller. -/
theorem answered_master {i : Fin 8} (hle : base + 8 ≤ base') (h2 : i ≠ 2) (hi : r i)
    (hbefore : ∀ k < i, k ≠ 2 → ¬ r k) (hnone : 2 < i → ∀ j, ¬ r' j) :
    Answered base base' drop ⟨.idle r base 4, .idle r' base' 2⟩ ⟨base + i, some (.master i)⟩
      ⟨(Controller.idle r base 4).take i, .idle (fun j => r' j && !drop j) base' 2⟩ := by
  refine ⟨nofun, ?_, ?_, ?_, ?_, ?_⟩
  · rintro _ ⟨rfl⟩
    exact ⟨rfl, fun e => h2 (PairLine.master.inj e), hi⟩
  · rintro _ ⟨rfl⟩
    rfl
  · rintro _ (k | k) ⟨rfl⟩ hk hw hrank
    · refine absurd hw (hbefore k ?_ fun e => hk (congrArg PairLine.master e))
      simp only [PairLine.rank] at hrank
      split_ifs at hrank <;> omega
    · refine absurd hw (hnone ?_ k)
      simp only [PairLine.rank] at hrank
      split_ifs at hrank <;> omega
  · rintro (k | k) hk
    · by_cases hki : k = i
      · simp [waits, Controller.take, Controller.idle, hki]
      · simp [waits, Controller.take, Controller.idle, PairLine.dropped, hki, Ne.symm hki]
    · simp [waits, Controller.idle, PairLine.dropped]
  · show (Pair.mk _ (if base' ≤ base + i then _ else _)).core = _
    rw [if_neg (by omega)]
    exact Pair.ext Controller.core_eoi_take_idle rfl

/-- **An acknowledgement at rest.** -/
theorem acknowledge_of_idle (hle : base + 8 ≤ base') (h : p.core = idle base base')
    (drop : Fin 8 → Bool) : ∃ a q, p.acknowledge drop = some (a, q) ∧
      Answered base base' drop p a q := by
  obtain ⟨⟨r, hc⟩, r', hc'⟩ : (∃ r, p.master = .idle r base 4) ∧ ∃ r', p.slave = .idle r' base' 2 :=
    ⟨⟨_, Controller.eq_idle_of_core (congrArg Pair.master h)⟩, _,
      Controller.eq_idle_of_core (congrArg Pair.slave h)⟩
  obtain ⟨c, c'⟩ := p
  subst hc hc'
  have hwired : wired ⟨.idle r base 4, .idle r' base' 2⟩ =
      .idle (Function.update r 2 (Controller.idle r' base' 2).request.isSome) base 4 := rfl
  have hslave : (Controller.idle r' base' 2).request.isSome = true ↔ ∃ j, r' j := by
    rw [← not_iff_not, Bool.not_eq_true, Option.isSome_eq_false_iff, Option.isNone_iff_eq_none,
      Controller.idle_request_eq_none, not_exists]
  unfold acknowledge
  rw [hwired]
  generalize (Controller.idle r' base' 2).request.isSome = out at hslave ⊢
  cases hreq : (Controller.idle (Function.update r 2 out) base 4).request with
  | none =>
    rw [Controller.idle_request_eq_none] at hreq
    refine ⟨_, _, rfl, answered_none hle ?_⟩
    rintro (k | k) hk hw
    · have hlow := hreq k
      rw [Function.update_of_ne (fun e => hk (congrArg PairLine.master e))] at hlow
      exact hlow hw
    · have h2 := hreq 2
      rw [Function.update_self] at h2
      exact h2 (hslave.2 ⟨k, hw⟩)
  | some i =>
    obtain ⟨hi, hbefore⟩ := Controller.idle_request_eq_some.1 hreq
    have hlow : ∀ k < i, k ≠ 2 → ¬ r k := fun k hk h2 => by
      have := hbefore k hk
      rwa [Function.update_of_ne h2] at this
    by_cases h2 : i = 2
    · subst h2
      rw [Function.update_self] at hi
      show ∃ a q, vector 2 ⟨(Controller.idle r base 4).take 2,
        .idle (fun j => r' j && !drop j) base' 2⟩ =
        some (a, q) ∧ _
      rw [vector_two rfl rfl]
      cases hreq' : (Controller.idle (fun j => r' j && !drop j) base' 2).request with
      | none =>
        exact ⟨_, _, rfl, answered_dropped (hslave.1 hi) (Controller.idle_request_eq_none.1 hreq')⟩
      | some j =>
        obtain ⟨hj, hjbefore⟩ := Controller.idle_request_eq_some.1 hreq'
        exact ⟨_, _, rfl, answered_slave (fun k hk => hlow k hk hk.ne) hj hjbefore⟩
    · show ∃ a q, vector i ⟨(Controller.idle r base 4).take i,
        .idle (fun j => r' j && !drop j) base' 2⟩ =
        some (a, q) ∧ _
      rw [vector_of_ne rfl h2]
      rw [Function.update_of_ne h2] at hi
      refine ⟨_, _, rfl, answered_master hle h2 hi hlow fun hlt j hj => ?_⟩
      have := hbefore 2 hlt
      rw [Function.update_self] at this
      exact this (hslave.2 ⟨j, hj⟩)

end Idle

/-! ## Controllers with something in service -/

/-- The controllers count their vectors from `base` and from `base'`, the second stands behind line
2, and no word of the initialization is missing. -/
structure Placed (base base' : ℕ) (p : Pair) : Prop where
  base : p.master.base = base
  cascade : p.master.cascade = 4
  setup : p.master.setup = .ready
  base' : p.slave.base = base'
  cascade' : p.slave.cascade = 2
  setup' : p.slave.setup = .ready

theorem Placed.of_core {base base' : ℕ} (h : p.core.Placed base base') : p.Placed base base' :=
  ⟨h.1, h.2, h.3, h.4, h.5, h.6⟩

theorem Placed.vector {base base' : ℕ} (h : p.Placed base base') {i : Fin 8} {a : Answer}
    (hv : Pair.vector i p = some (a, q)) :
    q.Placed base base' ∧ (∀ k, a.line = some k → a.vector = k.vector base base') ∧
      (a.line = none → a.vector = base + 7 ∨ a.vector = base' + 7) := by
  by_cases hi : i = 2
  · subst hi
    rw [vector_two h.cascade h.cascade'] at hv
    split at hv
    · obtain ⟨rfl, rfl⟩ := Prod.mk.inj (Option.some.inj hv)
      refine ⟨⟨h.1, h.2, h.3, h.4, h.5, h.6⟩, ?_, nofun⟩
      rintro _ ⟨rfl⟩
      exact congrArg (· + _) h.base'
    · obtain ⟨rfl, rfl⟩ := Prod.mk.inj (Option.some.inj hv)
      exact ⟨h, nofun, fun _ => Or.inr (congrArg (· + 7) h.base')⟩
  · rw [vector_of_ne h.cascade hi] at hv
    obtain ⟨rfl, rfl⟩ := Prod.mk.inj (Option.some.inj hv)
    refine ⟨h, ?_, nofun⟩
    rintro _ ⟨rfl⟩
    exact congrArg (· + _) h.base

/-- **Any acknowledgement** names a vector of the two controllers, and leaves them in their
places. -/
theorem Placed.acknowledge {base base' : ℕ} (h : p.Placed base base') {a : Answer}
    (hack : p.acknowledge drop = some (a, q)) :
    q.Placed base base' ∧ (∀ k, a.line = some k → a.vector = k.vector base base') ∧
      (a.line = none → a.vector = base + 7 ∨ a.vector = base' + 7) := by
  unfold Pair.acknowledge at hack
  split at hack
  · obtain ⟨rfl, rfl⟩ := Prod.mk.inj (Option.some.inj hack)
    exact ⟨h, nofun, fun _ => Or.inl (congrArg (· + 7) h.base)⟩
  next i _ =>
    have hp :
      Placed base base'
        ⟨p.master.take i, { p.slave with irr := fun j => p.slave.irr j && !drop j }⟩ :=
      ⟨h.1, h.2, h.3, h.4, h.5, h.6⟩
    exact hp.vector hack

end Pair

end Foundations
