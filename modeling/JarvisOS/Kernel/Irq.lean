import JarvisOS.Foundations.Controller
import JarvisOS.Foundations.Reach

/-!
# Interrupt requests

`pic_remap` and `irq_handler` over a pair of interrupt controllers. A step of `IrqState` is a
request that a device raises or drops, the processor accepting an interrupt, the next action of the
running handler, or a change of the interrupt flag; the flag can be set only when the handler has no
action left, since it acknowledges the interrupt before the routine that may switch to another task.

The invariant looks ahead: once the handler has written what it has still to write, the controllers
are at rest (`IrqInv.rest`). So nothing is in service whenever interrupts are accepted, no spurious
interrupt gets in the way, and every request is answered once, with the vector of its line and by
the routine of its device (`requests_served`).
-/

namespace JarvisOS

open Foundations

/-! ## `isr.c` -/

/-- `outb(port, value)`. -/
structure PortWrite where
  port : ℕ
  value : ℕ
  deriving DecidableEq

/-- What the interrupt controllers make of a write to a port. -/
def outb (w : PortWrite) (p : Pair) : Pair :=
  if w.port = 0x20 then { p with master := p.master.command w.value }
  else if w.port = 0x21 then { p with master := p.master.data w.value }
  else if w.port = 0xA0 then { p with slave := p.slave.command w.value }
  else if w.port = 0xA1 then { p with slave := p.slave.data w.value }
  else p

/-- The routines that `irq_handler` calls. -/
inductive IrqCall
  | timerTick
  | keyboardHandler
  | serialHandler
  deriving DecidableEq

/-- What the interrupt code does, for the controllers and the devices. -/
inductive IrqAct
  | write (w : PortWrite)
  | call (c : IrqCall)
  deriving DecidableEq

/-- `pic_remap`. -/
def picRemap : List IrqAct :=
  [.write ⟨0x20, 0x11⟩, .write ⟨0xA0, 0x11⟩, .write ⟨0x21, 0x20⟩, .write ⟨0xA1, 0x28⟩,
    .write ⟨0x21, 0x04⟩, .write ⟨0xA1, 0x02⟩, .write ⟨0x21, 0x01⟩, .write ⟨0xA1, 0x01⟩,
      .write ⟨0x21, 0x0⟩, .write ⟨0xA1, 0x0⟩]

/-- `irq_handler`. -/
def irqHandler (intNo : ℕ) : List IrqAct :=
  (if intNo ≥ 40 then [.write ⟨0xA0, 0x20⟩] else []) ++ .write ⟨0x20, 0x20⟩ ::
    if intNo = 32 then [.call .timerTick]
    else if intNo = 33 then [.call .keyboardHandler]
    else if intNo = 36 then [.call .serialHandler]
    else []

/-! ## The processor, the handler and the controllers -/

/-- The controllers, the interrupt flag, what the running handler has still to do, the routines
called so far, the answers to the processor's acknowledgements, and for each line how often a
request has been raised, how often its device has dropped it while it waited, and how often a write
to the controllers has cleared it. -/
structure IrqState where
  pics : Pair
  interruptFlag : Bool
  todo : List IrqAct
  calls : List IrqCall
  answers : List Answer
  raised : PairLine → ℕ
  dropped : PairLine → ℕ
  cleared : PairLine → ℕ

/-- The requests of `p` that `q` has no more. -/
def forgotten (p q : Pair) (k : PairLine) : ℕ := (p.waits k && !q.waits k).toNat

namespace IrqState

/-- The next action of the handler. -/
def perform (s : IrqState) : IrqAct → IrqState
  | .write w =>
    { s with pics := outb w s.pics, cleared := s.cleared + forgotten s.pics (outb w s.pics) }
  | .call c => { s with calls := s.calls ++ [c] }

end IrqState

/-- One step. -/
inductive IrqStep : IrqState → IrqState → Prop
  | raise (s : IrqState) {k : PairLine} (hk : k ≠ .master 2) :
      IrqStep s { s with
        pics := s.pics.setLine k true
        raised := s.raised + forgotten (s.pics.setLine k true) s.pics }
  | drop (s : IrqState) {k : PairLine} (hk : k ≠ .master 2) :
      IrqStep s { s with
        pics := s.pics.setLine k false
        dropped := s.dropped + forgotten s.pics (s.pics.setLine k false) }
  | accept (s : IrqState) {drop : Fin 8 → Bool} {a : Answer} {q : Pair} (hf : s.interruptFlag)
      (h : s.pics.acknowledge drop = some (a, q)) :
      IrqStep s { s with
        pics := q
        interruptFlag := false
        todo := irqHandler a.vector
        answers := s.answers ++ [a]
        dropped := fun k => s.dropped k + (s.pics.waits k && k.dropped drop).toNat }
  | act (s : IrqState) {a : IrqAct} {as : List IrqAct} (h : s.todo = a :: as) :
      IrqStep s { s.perform a with todo := as }
  | sti (s : IrqState) (h : s.todo = []) : IrqStep s { s with interruptFlag := true }
  | cli (s : IrqState) : IrqStep s { s with interruptFlag := false }

/-- `pic_remap` is about to run, with interrupts off; the controllers are in any state. -/
structure IrqBooted (s : IrqState) : Prop where
  flag : s.interruptFlag = false
  todo : s.todo = picRemap
  calls : s.calls = []
  answers : s.answers = []
  dropped : s.dropped = 0
  cleared : s.cleared = 0
  raised : ∀ k, s.raised k = (s.pics.waits k).toNat

/-- Moreover nothing is in service. -/
structure IrqStarted (s : IrqState) : Prop extends IrqBooted s where
  master : s.pics.master.isr = Controller.noLine
  slave : s.pics.slave.isr = Controller.noLine

/-- The states reached. -/
abbrev IrqReach (Init : IrqState → Prop) : IrqState → Prop := Reach Init IrqStep

/-! ## Looking ahead -/

/-- What the actions make of the controllers. -/
def controllersAfter (as : List IrqAct) (p : Pair) : Pair :=
  as.foldl (fun p a => match a with | .write w => outb w p | .call _ => p) p

/-- The routines among the actions. -/
def callsOf (as : List IrqAct) : List IrqCall :=
  as.filterMap fun | .write _ => none | .call c => some c

theorem core_outb (w : PortWrite) (p : Pair) : (outb w p).core = (outb w p.core).core := by
  unfold outb
  split_ifs
  · exact Pair.ext (Controller.core_command _) rfl
  · exact Pair.ext (Controller.core_data _) rfl
  · exact Pair.ext rfl (Controller.core_command _)
  · exact Pair.ext rfl (Controller.core_data _)
  · rfl

/-- What the actions do does not depend on the requests. -/
theorem core_controllersAfter {as : List IrqAct} {p q : Pair} (h : p.core = q.core) :
    (controllersAfter as p).core = (controllersAfter as q).core := by
  induction as generalizing p q with
  | nil => exact h
  | cons a as ih =>
    cases a with
    | write w => exact ih (by rw [core_outb w p, core_outb w q, h])
    | call c => exact ih h

/-- **`pic_remap`** puts the controllers at rest, with the vectors from 32 and from 40 on. -/
theorem controllersAfter_picRemap {p : Pair} (h : p.master.isr = Controller.noLine)
    (h' : p.slave.isr = Controller.noLine) :
    (controllersAfter picRemap p).core = .idle 32 40 := by
  obtain ⟨⟨r, s, m, b, c, e, u⟩, r', s', m', b', c', e', u'⟩ := p
  subst h h'
  simp [controllersAfter, picRemap, outb, Controller.command, Controller.data, Nat.testBit,
    Pair.core, Controller.core, Pair.idle, Controller.idle]

theorem command_eoi (c : Controller) : c.command 0x20 = c.eoi := by
  rw [Controller.command, if_neg (by decide), if_pos rfl]

/-- What `irq_handler` writes. -/
theorem controllersAfter_irqHandler (v : ℕ) (p : Pair) : controllersAfter (irqHandler v) p =
    ⟨p.master.eoi, if 40 ≤ v then p.slave.eoi else p.slave⟩ := by
  have hmaster : ∀ p : Pair, outb ⟨0x20, 0x20⟩ p = { p with master := p.master.eoi } := fun p => by
    rw [outb, if_pos rfl, command_eoi]
  have hslave : outb ⟨0xA0, 0x20⟩ p = { p with slave := p.slave.eoi } := by
    rw [outb, if_neg (by decide), if_neg (by decide), if_pos rfl, command_eoi]
  unfold irqHandler controllersAfter
  split_ifs <;> simp only [List.nil_append, List.singleton_append, List.foldl_cons, List.foldl_nil,
    hmaster, hslave]

/-- `irq_handler` writes ends of interrupts only. -/
theorem write_mem_irqHandler {v : ℕ} {w : PortWrite} (h : .write w ∈ irqHandler v) :
    w = ⟨0x20, 0x20⟩ ∨ w = ⟨0xA0, 0x20⟩ := by
  unfold irqHandler at h
  split_ifs at h <;> simp at h <;> tauto

/-- The end of an interrupt clears no request. -/
theorem waits_outb_of_eoi {w : PortWrite} (hw : w = ⟨0x20, 0x20⟩ ∨ w = ⟨0xA0, 0x20⟩) (p : Pair)
    (k : PairLine) :
    (outb w p).waits k = p.waits k := by
  rcases hw with rfl | rfl
  · rw [outb, if_pos rfl, command_eoi]
    cases k <;> rfl
  · rw [outb, if_neg (by decide), if_neg (by decide), if_pos rfl, command_eoi]
    cases k <;> rfl

/-! ## The invariant -/

/-- The line of the device that a routine is for. -/
def IrqCall.line : IrqCall → PairLine
  | timerTick => .irq 0
  | keyboardHandler => .irq 1
  | serialHandler => .irq 4

/-- **The invariant.** -/
structure IrqInv (s : IrqState) : Prop where
  /-- Once the handler has done what it has to do, the controllers are at rest. -/
  rest : (controllersAfter s.todo s.pics).core = .idle 32 40
  flag : s.interruptFlag → s.todo = []
  answers : ∀ a ∈ s.answers, (∀ k, a.line = some k → a.vector = k.vector 32 40 ∧ k ≠ .master 2) ∧
    (a.line = none → a.vector = 39 ∨ a.vector = 47)
  /-- Every request is answered, was dropped or cleared, or waits. -/
  requests : ∀ k, k ≠ .master 2 → s.raised k =
    s.answers.countP (fun a => a.line = some k) + s.dropped k + s.cleared k + (s.pics.waits k).toNat
  calls : s.calls ++ callsOf s.todo = s.answers.flatMap fun a => callsOf (irqHandler a.vector)

namespace IrqInv

variable {s t : IrqState}

theorem forgotten_add (p q : Pair) (k : PairLine) :
    forgotten p q k + (q.waits k).toNat = forgotten q p k + (p.waits k).toNat := by
  unfold forgotten
  cases p.waits k <;> cases q.waits k <;> rfl

/-- With the handler done the controllers are at rest. -/
theorem core (h : IrqInv s) (htodo : s.todo = []) : s.pics.core = .idle 32 40 := by
  have hrest := h.rest
  rwa [htodo] at hrest

theorem started (h : IrqStarted s) : IrqInv s where
  rest := by rw [h.todo, controllersAfter_picRemap h.master h.slave]
  flag := by simp [h.flag]
  answers := by simp [h.answers]
  requests k _ := by simp [h.answers, h.dropped, h.cleared, h.raised]
  calls := by rw [h.calls, h.todo, h.answers]; rfl

/-- A line is raised or dropped. -/
theorem setLine (h : IrqInv s) (k : PairLine) (b : Bool) :
    (controllersAfter s.todo (s.pics.setLine k b)).core = .idle 32 40 :=
  (core_controllersAfter (Pair.core_setLine k b)).trans h.rest

theorem raise (h : IrqInv s) (k : PairLine) : IrqInv { s with
    pics := s.pics.setLine k true
    raised := s.raised + forgotten (s.pics.setLine k true) s.pics } where
  rest := h.setLine k true
  flag := h.flag
  answers := h.answers
  requests k' hk' := by
    have hreq := h.requests k' hk'
    have hadd := forgotten_add (s.pics.setLine k true) s.pics k'
    have hno : forgotten s.pics (s.pics.setLine k true) k' = 0 := by
      unfold forgotten
      rw [Pair.waits_setLine]
      split_ifs <;> simp
    simp only [Pi.add_apply]
    omega
  calls := h.calls

theorem drop (h : IrqInv s) (k : PairLine) : IrqInv { s with
    pics := s.pics.setLine k false
    dropped := s.dropped + forgotten s.pics (s.pics.setLine k false) } where
  rest := h.setLine k false
  flag := h.flag
  answers := h.answers
  requests k' hk' := by
    have hreq := h.requests k' hk'
    have hadd := forgotten_add s.pics (s.pics.setLine k false) k'
    have hno : forgotten (s.pics.setLine k false) s.pics k' = 0 := by
      unfold forgotten
      rw [Pair.waits_setLine]
      split_ifs <;> simp
    simp only [Pi.add_apply]
    omega
  calls := h.calls

/-- A write to a port makes no request. -/
theorem waits_of_outb {w : PortWrite} {p : Pair} {k : PairLine} (h : (outb w p).waits k) :
    p.waits k := by
  have hcommand : ∀ (c : Controller) i, (c.command w.value).irr i → c.irr i := fun c i hi => by
    unfold Controller.command at hi
    split_ifs at hi
    · exact hi
    · exact hi
  have hdata : ∀ (c : Controller) i, (c.data w.value).irr i → c.irr i := fun c i hi => by
    unfold Controller.data at hi
    split at hi <;> exact hi
  unfold outb at h
  cases k <;> split_ifs at h
  all_goals first | exact h | exact hcommand _ _ h | exact hdata _ _ h

/-- The next action of the handler. -/
theorem act (h : IrqInv s) {a : IrqAct} {as : List IrqAct} (ha : s.todo = a :: as) :
    IrqInv { s.perform a with todo := as } := by
  have hrest := h.rest
  have hcalls := h.calls
  have hoff : s.interruptFlag ≠ true := fun hf => by
    have := h.flag hf
    rw [ha] at this
    cases this
  rw [ha] at hrest hcalls
  cases a with
  | write w =>
    refine ⟨hrest, fun hf => absurd hf hoff, h.answers, fun k hk => ?_, hcalls⟩
    have hreq := h.requests k hk
    have hadd := forgotten_add s.pics (outb w s.pics) k
    have hno : forgotten (outb w s.pics) s.pics k = 0 := by
      unfold forgotten
      cases hw : (outb w s.pics).waits k with
      | false => rfl
      | true => rw [waits_of_outb hw]; rfl
    simp only [IrqState.perform, Pi.add_apply]
    omega
  | call c =>
    refine ⟨hrest, fun hf => absurd hf hoff, h.answers, h.requests, ?_⟩
    show s.calls ++ [c] ++ callsOf as = _
    rw [List.append_assoc]
    exact hcalls

/-- The processor accepts an interrupt. -/
theorem accept (h : IrqInv s) (hf : s.interruptFlag) {drop : Fin 8 → Bool} {a : Answer} {q : Pair}
    (hack : s.pics.acknowledge drop = some (a, q)) : IrqInv { s with
      pics := q
      interruptFlag := false
      todo := irqHandler a.vector
      answers := s.answers ++ [a]
      dropped := fun k => s.dropped k + (s.pics.waits k && k.dropped drop).toNat } := by
  have htodo := h.flag hf
  obtain ⟨a', q', hack', hans⟩ := Pair.acknowledge_of_idle (by decide) (h.core htodo) drop
  obtain ⟨rfl, rfl⟩ := Prod.mk.inj (Option.some.inj (hack'.symm.trans hack))
  refine ⟨?_, nofun, fun b hb => ?_, fun k hk => ?_, ?_⟩
  · show (controllersAfter (irqHandler a'.vector) q').core = _
    rw [controllersAfter_irqHandler]
    exact hans.ends
  · rcases List.mem_append.1 hb with hb | hb
    · exact h.answers b hb
    · obtain rfl := List.mem_singleton.1 hb
      exact ⟨fun k hk => ⟨(hans.vector k hk).1, (hans.vector k hk).2.1⟩,
        fun hno => (hans.spurious hno).1⟩
  · have hreq := h.requests k hk
    have hwaits := hans.waits k hk
    rw [List.countP_append, List.countP_singleton]
    by_cases hline : a'.line = some k
    · have hkept := hans.kept k hline
      have hwait : s.pics.waits k = true := (hans.vector k hline).2.2
      have hgone : q'.waits k = false := by rw [hwaits]; simp [hline]
      simp only [hline, hkept, hgone, decide_true, if_true, Bool.and_false, Bool.toNat_false]
      rw [hreq, hwait, Bool.toNat_true]
      omega
    · have hsplit : (s.pics.waits k).toNat =
          (s.pics.waits k && k.dropped drop).toNat + (q'.waits k).toNat := by
        rw [hwaits]
        cases s.pics.waits k <;> cases k.dropped drop <;> simp [hline]
      simp only [hline, decide_false, Bool.false_eq_true, if_false]
      omega
  · have hcalls := h.calls
    rw [htodo] at hcalls
    show s.calls ++ callsOf (irqHandler a'.vector) = _
    rw [List.flatMap_append, ← hcalls]
    simp [callsOf]

/-- **Every step keeps the invariant.** -/
theorem step (h : IrqInv s) (hs : IrqStep s t) : IrqInv t := by
  cases hs with
  | raise => exact h.raise _
  | drop => exact h.drop _
  | accept hf hack => exact h.accept hf hack
  | act ha => exact h.act ha
  | sti htodo => exact ⟨h.rest, fun _ => htodo, h.answers, h.requests, h.calls⟩
  | cli => exact ⟨h.rest, nofun, h.answers, h.requests, h.calls⟩

end IrqInv

theorem IrqReach.inv {s : IrqState} (h : IrqReach IrqStarted s) : IrqInv s :=
  h.invariant (I := IrqInv) (fun _ h0 => .started h0) fun _ _ _ hi hs => hi.step hs

/-- Since the handler had nothing to do in `s`, no request has been cleared. -/
structure NoneCleared (s t : IrqState) : Prop where
  cleared : t.cleared = s.cleared
  writes : ∀ w, .write w ∈ t.todo → w = ⟨0x20, 0x20⟩ ∨ w = ⟨0xA0, 0x20⟩

theorem NoneCleared.step {s t u : IrqState} (h : NoneCleared s t) (hs : IrqStep t u) :
    NoneCleared s u := by
  cases hs with
  | raise => exact ⟨h.cleared, h.writes⟩
  | drop => exact ⟨h.cleared, h.writes⟩
  | accept => exact ⟨h.cleared, fun w hw => write_mem_irqHandler hw⟩
  | @act a as ha =>
    have hwrites : ∀ w, .write w ∈ as → w = ⟨0x20, 0x20⟩ ∨ w = ⟨0xA0, 0x20⟩ := fun w hw =>
      h.writes w (ha ▸ List.mem_cons_of_mem a hw)
    cases a with
    | write w =>
      have hw := h.writes w (ha ▸ List.mem_cons_self)
      have hno : forgotten t.pics (outb w t.pics) = 0 := by
        funext k
        simp [forgotten, waits_outb_of_eoi hw]
      refine ⟨?_, hwrites⟩
      simp only [IrqState.perform, hno, add_zero]
      exact h.cleared
    | call c => exact ⟨h.cleared, hwrites⟩
  | sti => exact ⟨h.cleared, h.writes⟩
  | cli => exact ⟨h.cleared, h.writes⟩

/-- **Once `pic_remap` is over** no request is cleared. -/
theorem noneCleared {s t : IrqState} (htodo : s.todo = []) (h : Reach (· = s) IrqStep t) :
    NoneCleared s t := by
  refine h.invariant ?_ fun _ _ _ hi hs => hi.step hs
  rintro _ rfl
  exact ⟨rfl, by simp [htodo]⟩

/-! ## Any state of the controllers at boot -/

/-- Once the handler has done what it has to do, the controllers count their vectors from 32 and
from 40. -/
structure PlacedInv (s : IrqState) : Prop where
  placed : (controllersAfter s.todo s.pics).Placed 32 40
  flag : s.interruptFlag → s.todo = []

/-- **`pic_remap`** puts the controllers in their places, whatever is in service. -/
theorem placed_picRemap (p : Pair) : (controllersAfter picRemap p).Placed 32 40 := by
  obtain ⟨⟨r, s, m, b, c, e, u⟩, r', s', m', b', c', e', u'⟩ := p
  constructor <;> simp [controllersAfter, picRemap, outb, Controller.command, Controller.data,
    Nat.testBit]

theorem placed_congr {as : List IrqAct} {p q : Pair} (h : p.core = q.core)
    (hp : (controllersAfter as q).Placed 32 40) : (controllersAfter as p).Placed 32 40 := by
  refine Pair.Placed.of_core ?_
  rw [core_controllersAfter h]
  exact ⟨hp.1, hp.2, hp.3, hp.4, hp.5, hp.6⟩

theorem PlacedInv.step {s t : IrqState} (h : PlacedInv s) (hs : IrqStep s t) : PlacedInv t := by
  cases hs with
  | raise => exact ⟨placed_congr (Pair.core_setLine _ true) h.placed, h.flag⟩
  | drop => exact ⟨placed_congr (Pair.core_setLine _ false) h.placed, h.flag⟩
  | @accept drop a q hf hack =>
    have hp := h.placed
    rw [h.flag hf] at hp
    obtain ⟨hq, -⟩ := hp.acknowledge hack
    refine ⟨?_, nofun⟩
    show (controllersAfter (irqHandler a.vector) q).Placed 32 40
    rw [controllersAfter_irqHandler]
    split_ifs <;> exact ⟨hq.1, hq.2, hq.3, hq.4, hq.5, hq.6⟩
  | @act a as ha =>
    have hp := h.placed
    rw [ha] at hp
    refine ⟨?_, fun hf => ?_⟩
    · cases a <;> exact hp
    · have hsame : (s.perform a).interruptFlag = s.interruptFlag := by cases a <;> rfl
      have hnil := h.flag (hsame ▸ hf)
      rw [ha] at hnil
      cases hnil
  | sti htodo => exact ⟨h.placed, fun _ => htodo⟩
  | cli => exact ⟨h.placed, nofun⟩

theorem IrqReach.placed {s : IrqState} (h : IrqReach IrqBooted s) : PlacedInv s := by
  refine h.invariant (fun s h0 => ?_) fun _ _ _ hi hs => hi.step hs
  exact ⟨h0.todo ▸ placed_picRemap s.pics, by simp [h0.flag]⟩

/-! ## Requests and routines -/

/-- An answer calls the routine of its line, if there is one. -/
theorem count_callsOf {a : Answer} (hk : ∀ k, a.line = some k → a.vector = k.vector 32 40)
    (hno : a.line = none → a.vector = 39 ∨ a.vector = 47) (c : IrqCall) :
    (callsOf (irqHandler a.vector)).count c = if a.line = some c.line then 1 else 0 := by
  obtain ⟨v, line⟩ := a
  cases line with
  | none => rcases hno rfl with rfl | rfl <;> cases c <;> rfl
  | some k =>
    obtain rfl := hk k rfl
    have hmaster : ∀ i : Fin 8, (callsOf (irqHandler (32 + i))).count c =
        if some (PairLine.master i) = some c.line then 1 else 0 := by
      cases c <;> decide
    have hslave : ∀ i : Fin 8, (callsOf (irqHandler (40 + i))).count c =
        if some (PairLine.slave i) = some c.line then 1 else 0 := by
      cases c <;> decide
    cases k with
    | master i => exact hmaster i
    | slave i => exact hslave i

theorem count_flatMap_callsOf (c : IrqCall) {as : List Answer}
    (h : ∀ a ∈ as, (∀ k, a.line = some k → a.vector = k.vector 32 40) ∧
      (a.line = none → a.vector = 39 ∨ a.vector = 47)) :
    (as.flatMap fun a => callsOf (irqHandler a.vector)).count c = as.countP fun a => a.line =
      some c.line := by
  induction as with
  | nil => rfl
  | cons a as ih =>
    obtain ⟨ha, has⟩ := List.forall_mem_cons.1 h
    rw [List.flatMap_cons, List.count_append, ih has, List.countP_cons, count_callsOf ha.1 ha.2 c,
      Nat.add_comm]
    simp

/-- **Requests are served.** Whatever state the controllers are in at boot, with nothing in service:
in every state reached, interrupts are accepted only when the handler has acknowledged the last one,
and then nothing is in service and no line is masked. Every answer carries the vector of its line,
counted from 32, or is spurious, with vector 39 or 47; vector 34 never occurs. Every request of a
line has been answered once, was dropped by its device before an acknowledgement, was cleared by the
controllers, or still waits, and once `pic_remap` is over no request is ever cleared. The routine of
a device has been called once for each request answered. With the handler done, an acknowledgement
takes the first waiting line in the order of priority, unless lines drop. -/
theorem requests_served {s : IrqState} (h : IrqReach IrqStarted s) :
    (s.interruptFlag → s.todo = []) ∧ (s.todo = [] → s.pics.core = .idle 32 40) ∧
    (∀ a ∈ s.answers, (∀ k, a.line = some k → a.vector = k.vector 32 40 ∧ k ≠ .master 2) ∧
      (a.line = none → a.vector = 39 ∨ a.vector = 47)) ∧
    (∀ k, k ≠ .master 2 → s.raised k = s.answers.countP (fun a => a.line = some k) + s.dropped k +
      s.cleared k + (s.pics.waits k).toNat) ∧
    (s.todo = [] → ∀ t, Reach (· = s) IrqStep t → t.cleared = s.cleared) ∧
    (∀ c : IrqCall, s.calls.count c + (callsOf s.todo).count c =
      s.answers.countP fun a => a.line = some c.line) ∧
    (s.todo = [] → ∀ drop, ∃ a q, s.pics.acknowledge drop = some (a, q) ∧
      (a.line = none → (∀ j, ¬ drop j) → ∀ k, k ≠ .master 2 → ¬ s.pics.waits k) ∧
      ∀ k, a.line = some k → s.pics.waits k ∧
        ∀ k', k' ≠ .master 2 → s.pics.waits k' → k'.rank < k.rank → k'.dropped drop) := by
  have hinv := h.inv
  refine ⟨hinv.flag, hinv.core, hinv.answers, hinv.requests,
    fun htodo t ht => (noneCleared htodo ht).cleared, fun c => ?_, fun htodo drop => ?_⟩
  · rw [← List.count_append, hinv.calls, count_flatMap_callsOf c fun a ha => ?_]
    exact ⟨fun k hk => ((hinv.answers a ha).1 k hk).1, (hinv.answers a ha).2⟩
  · obtain ⟨a, q, hack, hans⟩ := Pair.acknowledge_of_idle (by decide) (hinv.core htodo) drop
    exact ⟨a, q, hack, fun hno => (hans.spurious hno).2,
      fun k hk => ⟨(hans.vector k hk).2.2, fun k' => hans.first k k' hk⟩⟩

/-- Controllers left by the firmware with the vectors from 8 on, with a key waiting. -/
def firmwarePics : Pair where
  master := .idle (fun i => i.val = 1) 8 4
  slave := .idle Controller.noLine 0x70 2

/-- Before `pic_remap`. -/
def bootIrq : IrqState :=
  ⟨firmwarePics, false, picRemap, [], [], fun k => (firmwarePics.waits k).toNat, 0, 0⟩

/-- The first action of the handler. -/
def IrqState.advance (s : IrqState) : IrqState :=
  match s.todo with
  | [] => s
  | a :: as => { s.perform a with todo := as }

theorem IrqState.todo_iterate_advance (s : IrqState) (n : ℕ) :
    (advance^[n] s).todo = s.todo.drop n := by
  induction n with
  | zero => rfl
  | succ n ih =>
    rw [Function.iterate_succ_apply', ← List.tail_drop, ← ih, advance]
    split
    next h => rw [h]; rfl
    next h => rw [h]; rfl

theorem IrqState.step_advance {s : IrqState} (h : s.todo ≠ []) : IrqStep s s.advance := by
  obtain ⟨a, as, h⟩ := List.exists_cons_of_ne_nil h
  have hnext : s.advance = { s.perform a with todo := as } := by rw [advance, h]
  exact hnext ▸ .act s h

theorem IrqState.todo_boot : (advance^[10] bootIrq).todo = [] := by
  rw [todo_iterate_advance]
  rfl

theorem irqReach_boot : IrqReach IrqStarted (IrqState.advance^[10] bootIrq) := by
  refine Reach.iterate (.start ⟨⟨rfl, rfl, rfl, rfl, rfl, rfl, fun _ => rfl⟩, rfl, rfl⟩) fun k hk =>
    IrqState.step_advance ?_
  rw [IrqState.todo_iterate_advance]
  exact List.ne_nil_of_length_pos (by rw [List.length_drop]; exact Nat.sub_pos_of_lt hk)

/-- After `pic_remap`, with a request of a line and interrupts on. -/
def requestedIrq (k : PairLine) : IrqState :=
  let s := IrqState.advance^[10] bootIrq
  { s with
    pics := s.pics.setLine k true
    raised := s.raised + forgotten (s.pics.setLine k true) s.pics
    interruptFlag := true }

theorem irqReach_requested {k : PairLine} (hk : k ≠ .master 2) :
    IrqReach IrqStarted (requestedIrq k) :=
  .next (.next irqReach_boot (.raise _ hk)) (.sti _ IrqState.todo_boot)

/-- A key that waits at boot is cleared. The next one is answered, and the controllers are at rest
again when its routine has been called. -/
theorem requests_served_key : ∃ s, IrqReach IrqStarted s ∧ s.todo = [] ∧ s.pics.core = .idle 32 40 ∧
    s.answers.map Answer.vector = [33] ∧ s.calls.count .keyboardHandler = 1 ∧
    s.raised (.irq 1) = 2 ∧ s.cleared (.irq 1) = 1 := by
  obtain ⟨q, hack⟩ : ∃ q, (requestedIrq (.irq 1)).pics.acknowledge Controller.noLine =
      some (⟨33, some (.irq 1)⟩, q) := ⟨_, rfl⟩
  obtain ⟨t, hstep, htodo, hanswers, hraised, hcleared⟩ : ∃ t, IrqStep (requestedIrq (.irq 1)) t ∧
      t.todo = irqHandler 33 ∧ (IrqState.advance^[2] t).answers = [⟨33, some (.irq 1)⟩] ∧
      (IrqState.advance^[2] t).raised (.irq 1) = 2 ∧
      (IrqState.advance^[2] t).cleared (.irq 1) = 1 := by
    refine ⟨_, .accept _ rfl hack, rfl, rfl, rfl, ?_⟩
    obtain rfl := (Prod.mk.inj (Option.some.inj hack)).2
    rfl
  have hreach : IrqReach IrqStarted (IrqState.advance^[2] t) :=
    Reach.iterate (.next (irqReach_requested (by decide)) hstep)
      fun k hk => IrqState.step_advance (by
      rw [IrqState.todo_iterate_advance, htodo]
      exact List.ne_nil_of_length_pos (by rw [List.length_drop]; exact Nat.sub_pos_of_lt hk))
  have hdone : (IrqState.advance^[2] t).todo = [] := by
    rw [IrqState.todo_iterate_advance, htodo]
    rfl
  obtain ⟨-, hcore, -, -, -, hcalls, -⟩ := requests_served hreach
  have hcount := hcalls .keyboardHandler
  rw [hdone, hanswers] at hcount
  exact ⟨_, hreach, hdone, hcore hdone, by rw [hanswers]; rfl, hcount, hraised, hcleared⟩

end JarvisOS
