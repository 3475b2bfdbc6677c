import Mathlib.Data.List.Basic
import Mathlib.Data.List.Infix
import Mathlib.Data.UInt
import Mathlib.Tactic.Common

/-!
# A serial port

A receiver with a queue of its own, a transmitter, and registers for both. Bytes come in and go out
on the line at any time between two accesses (`LineEvent`). Over any period outside of loopback,
what was taken from the receiver and what is still queued there is what came in and found room, in
order, and what has gone out on the line and is still in the transmitter is what was given to it
(`Uart.Moves`); periods compose (`Uart.Moves.trans`).
-/

namespace Foundations

/-- What happens on the line. -/
inductive LineEvent
  /-- A byte comes in. -/
  | arrive (b : UInt8)
  /-- The transmitter is done with a byte. -/
  | shift
  deriving DecidableEq

/-- The bytes that come in. -/
def LineEvent.arrivals (es : List LineEvent) : List UInt8 :=
  es.filterMap fun | arrive b => some b | shift => none

/-- What the registers say. -/
structure UartConfig where
  divisor : ℕ
  lineControl : UInt8
  modemControl : UInt8
  interruptEnable : UInt8
  fifos : Bool
  deriving DecidableEq

namespace UartConfig

variable (c : UartConfig)

/-- Registers 0 and 1 are the divisor. -/
def divisorAccess : Bool := c.lineControl &&& 0x80 ≠ 0

/-- The transmitter is connected to the receiver. -/
def loopback : Bool := c.modemControl &&& 0x10 ≠ 0

/-- The room for bytes, in each direction. -/
def depth : ℕ := if c.fifos then 16 else 1

/-- Write a register that holds settings. -/
def write (reg : ℕ) (v : UInt8) : UartConfig :=
  match reg with
  | 0 => if c.divisorAccess then { c with divisor := c.divisor / 2 ^ 8 * 2 ^ 8 + v.toNat } else c
  | 1 =>
    if c.divisorAccess then { c with divisor := c.divisor % 2 ^ 8 + v.toNat * 2 ^ 8 }
    else { c with interruptEnable := v }
  | 2 => { c with fifos := v &&& 0x01 ≠ 0 }
  | 3 => { c with lineControl := v }
  | 4 => { c with modemControl := v }
  | _ => c

theorem divisorAccess_write (v : UInt8) :
    (c.write 3 v).divisorAccess = decide (v &&& 0x80 ≠ 0) := rfl

/-- The port is connected to the line, with the data register in place. -/
structure InService : Prop where
  data : c.divisorAccess = false
  line : c.loopback = false

end UartConfig

/-- The port, with its queues from the oldest byte on. -/
structure Uart where
  config : UartConfig
  rx : List UInt8
  tx : List UInt8
  /-- What has gone out on the line. -/
  wire : List UInt8
  /-- What has been received. -/
  heard : List UInt8
  /-- The number of bytes that found no room. -/
  missed : ℕ

/-- An access to a register. -/
inductive RegisterOp
  | read (reg : ℕ)
  | write (reg : ℕ) (v : UInt8)

namespace Uart

/-! ## The line -/

/-- A byte reaches the receiver. -/
def receive (b : UInt8) (u : Uart) : Uart :=
  if u.rx.length < u.config.depth then { u with rx := u.rx ++ [b], heard := u.heard ++ [b] }
  else { u with missed := u.missed + 1 }

/-- The transmitter is done with its oldest byte. -/
def shiftOut (u : Uart) : Uart :=
  match u.tx with
  | [] => u
  | c :: cs =>
    if u.config.loopback then { u with tx := cs }.receive c else
      { u with tx := cs, wire := u.wire ++ [c] }

def event (u : Uart) : LineEvent → Uart
  | .arrive b => if u.config.loopback then u else u.receive b
  | .shift => u.shiftOut

def events (u : Uart) (es : List LineEvent) : Uart := es.foldl event u

/-! ## Registers -/

/-- The line status: whether a byte is waiting, and whether the transmitter is empty. -/
def lineStatus (u : Uart) : UInt8 :=
  (if u.rx = [] then 0 else 0x01) ||| (if u.tx = [] then 0x60 else 0)

/-- Read a register. The registers 2, 6 and 7 are left out. -/
def read (reg : ℕ) (u : Uart) : UInt8 × Uart :=
  match reg with
  | 0 =>
    if u.config.divisorAccess then (.ofNat u.config.divisor, u)
    else
      match u.rx with
      | [] => (0, u)
      | b :: bs => (b, { u with rx := bs })
  | 1 =>
    (if u.config.divisorAccess then .ofNat (u.config.divisor / 2 ^ 8) else
      u.config.interruptEnable, u)
  | 3 => (u.config.lineControl, u)
  | 4 => (u.config.modemControl, u)
  | 5 => (u.lineStatus, u)
  | _ => (0, u)

/-- Write a register. A byte that the transmitter has no room for is dropped. -/
def write (reg : ℕ) (v : UInt8) (u : Uart) : Uart :=
  let t := { u with config := u.config.write reg v }
  match reg with
  | 0 =>
    if ¬ u.config.divisorAccess ∧ u.tx.length < u.config.depth then
      { t with tx := u.tx ++ [v] } else t
  | 2 => { t with
      rx := if v &&& 0x02 ≠ 0 then [] else u.rx
      tx := if v &&& 0x04 ≠ 0 then [] else u.tx }
  | _ => t

def access (u : Uart) : RegisterOp → UInt8 × Uart
  | .read reg => u.read reg
  | .write reg v => (0, u.write reg v)

/-- The port requests an interrupt. -/
def requests (u : Uart) : Prop :=
  u.config.interruptEnable &&& 0x01 ≠ 0 ∧ u.config.modemControl &&& 0x08 ≠ 0 ∧ u.rx ≠ []

/-! ## Periods -/

/-- A period in which the bytes `arr` came in, `taken` were taken from the receiver and `given` were
given to the transmitter. -/
structure Moves (u t : Uart) (arr taken given : List UInt8) : Prop where
  config : t.config = u.config
  out : t.wire ++ t.tx = u.wire ++ u.tx ++ given
  sends : List.IsPrefix u.wire t.wire
  into : ∃ new, List.Sublist new arr ∧ t.heard = u.heard ++ new ∧ u.rx ++ new = taken ++ t.rx ∧
    t.missed + new.length = u.missed + arr.length

namespace Moves

variable {u t w : Uart} {arr arr' taken taken' given given' : List UInt8}

theorem refl (u : Uart) : Moves u u [] [] [] :=
  ⟨rfl, (List.append_nil _).symm, List.prefix_rfl, [], List.Sublist.refl _,
    (List.append_nil _).symm, List.append_nil _, rfl⟩

/-- **Periods compose.** -/
theorem trans (h : Moves u t arr taken given) (h' : Moves t w arr' taken' given') :
    Moves u w (arr ++ arr') (taken ++ taken') (given ++ given') := by
  obtain ⟨new, hsub, hheard, hrx, hmissed⟩ := h.into
  obtain ⟨new', hsub', hheard', hrx', hmissed'⟩ := h'.into
  refine ⟨h'.config.trans h.config, ?_, h.sends.trans h'.sends, new ++ new',
    hsub.append hsub', ?_, ?_, ?_⟩
  · rw [h'.out, h.out, List.append_assoc]
  · rw [hheard', hheard, List.append_assoc]
  · rw [← List.append_assoc, hrx, List.append_assoc, hrx', List.append_assoc]
  · rw [List.length_append, List.length_append]
    omega

/-- The queue of the transmitter gets no longer than by what it is given. -/
theorem tx_length (h : Moves u t arr taken given) : t.tx.length ≤ u.tx.length + given.length := by
  have hout := congrArg List.length h.out
  have hsends := h.sends.length_le
  simp only [List.length_append] at hout
  omega

theorem rx_length (h : Moves u t arr taken given) :
    taken.length + t.rx.length ≤ u.rx.length + arr.length := by
  obtain ⟨new, hsub, -, hrx, -⟩ := h.into
  have hlen := congrArg List.length hrx
  have hsub := hsub.length_le
  simp only [List.length_append] at hlen
  omega

/-- What waits goes on waiting until it is taken. -/
theorem rx_ne_nil (h : Moves u t arr [] given) (hrx : u.rx ≠ []) : t.rx ≠ [] := by
  obtain ⟨new, -, -, e, -⟩ := h.into
  rw [List.nil_append] at e
  rw [← e]
  exact List.append_ne_nil_of_left_ne_nil hrx new

end Moves

variable {u : Uart}

theorem receive_moves (b : UInt8) (u : Uart) : Moves u (u.receive b) [b] [] [] := by
  unfold receive
  split_ifs
  · exact ⟨rfl, (List.append_nil _).symm, List.prefix_rfl, [b], List.Sublist.refl _, rfl, rfl, rfl⟩
  · exact ⟨rfl, (List.append_nil _).symm, List.prefix_rfl, [], List.nil_sublist _,
      (List.append_nil _).symm, List.append_nil _, rfl⟩

theorem shiftOut_moves (h : u.config.InService) : Moves u u.shiftOut [] [] [] := by
  cases htx : u.tx with
  | nil =>
    simp only [shiftOut, htx]
    exact .refl u
  | cons c cs =>
    simp only [shiftOut, htx, h.line]
    refine ⟨rfl, ?_, List.prefix_append _ _, (Moves.refl u).into⟩
    rw [htx, List.append_nil]
    exact List.append_assoc _ [c] cs

/-- **One event** of the line. -/
theorem event_moves (h : u.config.InService) (e : LineEvent) : Moves u (u.event e)
    (LineEvent.arrivals [e]) [] [] := by
  cases e with
  | arrive b =>
    have hstep : u.event (.arrive b) = u.receive b := if_neg (by simp [h.line])
    rw [hstep]
    exact receive_moves b u
  | shift => exact shiftOut_moves h

theorem events_moves (h : u.config.InService) (es : List LineEvent) :
    Moves u (u.events es) (LineEvent.arrivals es) [] [] := by
  induction es generalizing u with
  | nil => exact .refl u
  | cons e es ih =>
    have hstep := event_moves h e
    have harr : LineEvent.arrivals (e :: es) = LineEvent.arrivals [e] ++ LineEvent.arrivals es := by
      rw [LineEvent.arrivals, ← List.singleton_append, List.filterMap_append]
      rfl
    rw [harr]
    exact hstep.trans (ih (hstep.config.symm ▸ h))

theorem receive_tx (b : UInt8) (u : Uart) : (u.receive b).tx = u.tx := by
  unfold receive
  split_ifs <;> rfl

theorem tx_shiftOut (u : Uart) : u.shiftOut.tx = u.tx.tail := by
  cases htx : u.tx with
  | nil =>
    simp only [shiftOut, htx]
    rfl
  | cons c cs =>
    simp only [shiftOut, htx]
    split_ifs
    · exact receive_tx c _
    · rfl

/-! ## Accesses -/

theorem lineStatus_dataReady (u : Uart) : u.lineStatus &&& 0x01 ≠ 0 ↔ u.rx ≠ [] := by
  unfold lineStatus
  by_cases hrx : u.rx = []
  · rw [if_pos hrx]
    refine iff_of_false ?_ (not_not.2 hrx)
    split_ifs <;> decide
  · rw [if_neg hrx]
    refine iff_of_true ?_ hrx
    split_ifs <;> decide

theorem lineStatus_txEmpty (u : Uart) : u.lineStatus &&& 0x20 ≠ 0 ↔ u.tx = [] := by
  unfold lineStatus
  by_cases htx : u.tx = []
  · rw [if_pos htx]
    refine iff_of_true ?_ htx
    split_ifs <;> decide
  · rw [if_neg htx]
    refine iff_of_false ?_ htx
    split_ifs <;> decide

/-- What the data register holds. -/
theorem read_data_eq (h : u.config.divisorAccess = false) :
    u.read 0 = (u.rx.head?.getD 0, { u with rx := u.rx.tail }) := by
  simp only [read]
  rw [if_neg (by simp [h])]
  cases hrx : u.rx with
  | nil =>
    have hsame : { u with rx := [] } = u := by rw [← hrx]
    exact congrArg (Prod.mk 0) hsame.symm
  | cons b bs => rfl

/-- **A byte is taken.** -/
theorem read_data (h : u.config.InService) {b : UInt8} {bs : List UInt8} (hrx : u.rx = b :: bs) :
    u.read 0 = (b, { u with rx := bs }) ∧ Moves u { u with rx := bs } [] [b] [] := by
  refine ⟨?_, rfl, (List.append_nil _).symm, List.prefix_rfl, [], List.Sublist.refl _,
    (List.append_nil _).symm, ?_, rfl⟩
  · rw [read_data_eq h.data, hrx]
    rfl
  · rw [hrx, List.append_nil]
    rfl

/-- **A byte is given** to an empty transmitter. -/
theorem write_data (h : u.config.InService) (htx : u.tx = []) (c : UInt8) :
    u.write 0 c = { u with tx := [c] } ∧ Moves u { u with tx := [c] } [] [] [c] := by
  have hroom : u.tx.length < u.config.depth := by
    rw [htx, UartConfig.depth]
    split_ifs <;> decide
  refine ⟨?_, rfl, ?_, List.prefix_rfl, (Moves.refl u).into⟩
  · have hconfig : u.config.write 0 c = u.config := if_neg (by simp [h.data])
    simp only [write]
    rw [if_pos ⟨by simp [h.data], hroom⟩, htx, hconfig]
    rfl
  · rw [htx, List.append_nil]

@[simp] theorem write_config (reg : ℕ) (v : UInt8) (u : Uart) :
    (u.write reg v).config = u.config.write reg v := by
  unfold write
  dsimp only
  split
  · split_ifs <;> rfl
  · rfl
  · rfl

theorem receive_config (b : UInt8) (u : Uart) : (u.receive b).config = u.config := by
  unfold receive
  split_ifs <;> rfl

/-- The line changes no setting. -/
@[simp] theorem events_config (u : Uart) (es : List LineEvent) :
    (u.events es).config = u.config := by
  induction es generalizing u with
  | nil => rfl
  | cons e es ih =>
    refine (ih (u.event e)).trans ?_
    cases e with
    | arrive b =>
      unfold event
      dsimp only
      split_ifs
      · rfl
      · exact receive_config b u
    | shift =>
      change u.shiftOut.config = u.config
      cases htx : u.tx with
      | nil => simp only [shiftOut, htx]
      | cons c cs =>
        simp only [shiftOut, htx]
        split_ifs
        · exact receive_config c _
        · rfl

/-! ## A transmitter with nothing to send -/

/-- In loopback nothing happens. -/
theorem events_of_loopback (hl : u.config.loopback = true) (htx : u.tx = []) (es : List LineEvent) :
    u.events es = u := by
  induction es with
  | nil => rfl
  | cons e es ih =>
    have hstep : u.event e = u := by
      cases e with
      | arrive b => exact if_pos hl
      | shift =>
        change u.shiftOut = u
        simp only [shiftOut, htx]
    change (u.event e).events es = u
    rw [hstep, ih]

/-- In loopback, one byte in the transmitter reaches the receiver or stays. -/
theorem events_of_loopback_byte (hl : u.config.loopback = true) {c : UInt8} (htx : u.tx = [c])
    (es : List LineEvent) : u.events es = if .shift ∈ es then { u with tx := [] }.receive c else
      u := by
  induction es with
  | nil => rfl
  | cons e es ih =>
    change (u.event e).events es = _
    cases e with
    | arrive b =>
      have hstep : u.event (.arrive b) = u := if_pos hl
      rw [hstep, ih]
      simp only [List.mem_cons, reduceCtorEq, false_or]
    | shift =>
      have hstep : u.event .shift = { u with tx := [] }.receive c := by
        change u.shiftOut = _
        simp only [shiftOut, htx, if_pos hl]
      rw [hstep, if_pos List.mem_cons_self]
      have hconfig : ({ u with tx := [] }.receive c).config = u.config := receive_config c _
      have hempty : ({ u with tx := [] }.receive c).tx = [] := receive_tx c _
      exact events_of_loopback (hconfig.symm ▸ hl) hempty es

/-- On the line, what comes in fills the queue. -/
theorem events_of_line (hl : u.config.loopback = false) (htx : u.tx = []) (es : List LineEvent) :
    (u.events es).tx = [] ∧
      (u.events es).rx = u.rx ++ (LineEvent.arrivals es).take (u.config.depth - u.rx.length) := by
  induction es generalizing u with
  | nil => exact ⟨htx, by simp [LineEvent.arrivals, events]⟩
  | cons e es ih =>
    change ((u.event e).events es).tx = [] ∧ ((u.event e).events es).rx = _
    cases e with
    | shift =>
      have hstep : u.event .shift = u := by
        change u.shiftOut = u
        simp only [shiftOut, htx]
      rw [hstep]
      exact ih hl htx
    | arrive b =>
      have hstep : u.event (.arrive b) = u.receive b := if_neg (by simp [hl])
      have harr : LineEvent.arrivals (.arrive b :: es) = b :: LineEvent.arrivals es := rfl
      rw [hstep, harr]
      obtain ⟨htx', hrx'⟩ := ih ((congrArg _ (receive_config b u)).trans hl)
        ((receive_tx b u).trans htx)
      refine ⟨htx', hrx'.trans ?_⟩
      rw [receive_config]
      unfold receive
      split_ifs with hroom
      · have hpos : u.config.depth - u.rx.length = u.config.depth - (u.rx ++ [b]).length + 1 := by
          rw [List.length_append, List.length_singleton]
          omega
        rw [hpos, List.take_succ_cons, List.append_assoc]
        rfl
      · rw [Nat.sub_eq_zero_of_le (not_lt.1 hroom)]
        rfl

end Uart

end Foundations
