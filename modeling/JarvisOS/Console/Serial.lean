import JarvisOS.Console.Agent
import JarvisOS.Foundations.Footprint
import JarvisOS.Foundations.Uart

/-!
# The serial port

`serial.c` as programs of port accesses. Whatever device answers, output ends
(`serialWrite_returns`). With a port at COM1, between any two accesses of `serial_write` bytes come
in and go out and the interrupt handler runs; what was written goes out in order, but for the bytes
that the transmitter had no time for, and what came in is pushed to the shell in order, but for the
bytes that the port had no room for (`serial_conveys`).
-/

namespace JarvisOS

open Foundations
open Foundations.Prog (perform)

/-! ## `serial.c` -/

/-- `COM1` -/
abbrev com1 : ℕ := 0x3F8

/-- `REG_DATA` -/
abbrev regData : ℕ := 0

/-- `REG_IER` -/
abbrev regIer : ℕ := 1

/-- `REG_FCR` -/
abbrev regFcr : ℕ := 2

/-- `REG_LCR` -/
abbrev regLcr : ℕ := 3

/-- `REG_MCR` -/
abbrev regMcr : ℕ := 4

/-- `REG_LSR` -/
abbrev regLsr : ℕ := 5

/-- `LSR_DATA_READY` -/
abbrev lsrDataReady : UInt8 := 0x01

/-- `LSR_THR_EMPTY` -/
abbrev lsrThrEmpty : UInt8 := 0x20

/-- `TX_SPIN_LIMIT` -/
abbrev txSpinLimit : ℕ := 100000

/-- The instructions that access a port; `outb` is answered by `0`. -/
inductive PortOp
  | inb (port : ℕ)
  | outb (port : ℕ) (value : UInt8)

/-- Programs of port accesses. -/
abbrev SerialM : Type → Type := Prog PortOp UInt8

/-- `serial_init`: `ready`. -/
def serialInit : SerialM ℕ := do
  let _ ← perform (.outb (com1 + regIer) 0x00)
  let _ ← perform (.outb (com1 + regLcr) 0x80)
  let _ ← perform (.outb (com1 + regData) 0x03)
  let _ ← perform (.outb (com1 + regIer) 0x00)
  let _ ← perform (.outb (com1 + regLcr) 0x03)
  let _ ← perform (.outb (com1 + regFcr) 0xC7)
  let _ ← perform (.outb (com1 + regMcr) 0x0B)
  -- the loopback test
  let _ ← perform (.outb (com1 + regMcr) 0x1E)
  let _ ← perform (.outb (com1 + regData) 0xAE)
  let echo ← perform (.inb (com1 + regData))
  let ready := if echo = 0xAE then 1 else 0
  let _ ← perform (.outb (com1 + regMcr) 0x0B)
  if ready ≠ 0 then
    let _ ← perform (.outb (com1 + regIer) 0x01)
    return ready
  else return ready

/-- The loop of `tx`, with `spins` rounds left before the last: whether the transmitter is empty. -/
def txWait : ℕ → SerialM Bool
  | 0 => do
    let status ← perform (.inb (com1 + regLsr))
    return decide (status &&& lsrThrEmpty ≠ 0)
  | spins + 1 => do
    let status ← perform (.inb (com1 + regLsr))
    if status &&& lsrThrEmpty ≠ 0 then return true else txWait spins

/-- `tx`, with `tx_count` before and after. -/
def tx (c : UInt8) (txCount : ℕ) : SerialM ℕ := do
  let empty ← txWait txSpinLimit
  if empty then
    let _ ← perform (.outb (com1 + regData) c)
    return u32 (txCount + 1)
  else return txCount

/-- `serial_write_char` -/
def serialWriteChar (ready : ℕ) (c : UInt8) (txCount : ℕ) : SerialM ℕ :=
  if ready = 0 then return txCount
  else if c = newlineChar then do
    let txCount ← tx returnChar txCount
    tx c txCount
  else tx c txCount

/-- `serial_write` -/
def serialWrite (ready : ℕ) : List UInt8 → ℕ → SerialM ℕ
  | [], txCount => return txCount
  | c :: s, txCount => do
    let txCount ← serialWriteChar ready c txCount
    serialWrite ready s txCount

/-- `serial_handler`, with `rx_count` and the shell's queue before and after. -/
def serialHandler : ℕ → ℕ → Console → SerialM (ℕ × Console)
  | 0, _, _ => .spin
  | fuel + 1, rxCount, console => do
    let status ← perform (.inb (com1 + regLsr))
    if status &&& lsrDataReady ≠ 0 then
      let byte ← perform (.inb (com1 + regData))
      serialHandler fuel (u32 (rxCount + 1)) (shellPushChar (serialByte byte) console)
    else return (rxCount, console)

/-! ## Output ends -/

open Prog (ReturnsWithin returnsWithin_ret returnsWithin_ite)

theorem txWait_returns (spins : ℕ) : ReturnsWithin (spins + 1) (txWait spins) := by
  induction spins with
  | zero => exact fun _ => returnsWithin_ret 0 _
  | succ spins ih => exact fun _ => returnsWithin_ite (returnsWithin_ret _ _) ih

theorem tx_returns (c : UInt8) (txCount : ℕ) : ReturnsWithin (txSpinLimit + 2) (tx c txCount) :=
  (txWait_returns txSpinLimit).bind (m := 1) fun _ =>
    returnsWithin_ite (fun _ => returnsWithin_ret 0 _) (returnsWithin_ret 1 _)

theorem serialWriteChar_returns (ready : ℕ) (c : UInt8) (txCount : ℕ) :
    ReturnsWithin (2 * (txSpinLimit + 2)) (serialWriteChar ready c txCount) := by
  unfold serialWriteChar
  refine returnsWithin_ite (returnsWithin_ret _ _) (returnsWithin_ite ?_ ?_)
  · rw [Nat.two_mul]
    exact (tx_returns returnChar txCount).bind fun n => tx_returns c n
  · exact (tx_returns c txCount).mono (by omega)

theorem serialWrite_returns (ready : ℕ) (s : List UInt8) (txCount : ℕ) :
    ReturnsWithin (2 * (txSpinLimit + 2) * s.length) (serialWrite ready s txCount) := by
  induction s generalizing txCount with
  | nil => exact returnsWithin_ret _ _
  | cons c s ih =>
    rw [List.length_cons, Nat.mul_succ, Nat.add_comm]
    exact (serialWriteChar_returns ready c txCount).bind fun n => ih n

/-! ## Input -/

/-- The register that an access to the port at COM1 is about. -/
def PortOp.register : PortOp → RegisterOp
  | inb port => .read (port - com1)
  | outb port value => .write (port - com1) value

/-- What happens on the line before each of the next accesses. -/
abbrev LineScript : Type := List (List LineEvent)

/-- The bytes that come in. -/
def LineScript.arrivals (script : LineScript) : List UInt8 := LineEvent.arrivals script.flatten

/-- An access, after what happens before it. -/
def lineAct (op : PortOp) (s : Uart × LineScript) : UInt8 × (Uart × LineScript) :=
  let r := (s.1.events (s.2.headD [])).access op.register
  (r.1, r.2, s.2.tail)

/-- Push what `serial_handler` makes of the bytes. -/
def pushBytes (bytes : List UInt8) (console : Console) : Console :=
  bytes.foldl (fun console byte => shellPushChar (serialByte byte) console) console

theorem LineScript.arrivals_eq (script : LineScript) :
    script.arrivals = LineEvent.arrivals (script.headD []) ++ LineScript.arrivals script.tail := by
  cases script with
  | nil => rfl
  | cons es script => exact List.filterMap_append

/-- A number of steps of a counter. -/
theorem u32_add_succ (n k : ℕ) : u32 (u32 (n + 1) + k) = u32 (n + (k + 1)) := by
  simp only [u32]
  omega

section Handler

variable {u : Uart} {script : LineScript}

open Uart (Moves)

/-- **`serial_handler`** returns, once the bytes that come in meanwhile are in: it has taken all
bytes there are, in order, and pushed them. -/
theorem serialHandler_spec (hu : u.config.InService) {fuel : ℕ}
    (hfuel : u.rx.length + script.arrivals.length < fuel) {rxCount : ℕ} (hcount : rxCount < 2 ^ 32)
    (console : Console) : ∃ t rest arr taken,
    Prog.run lineAct (serialHandler fuel rxCount console) (u, script) =
      some ((u32 (rxCount + taken.length), pushBytes taken console), t, rest) ∧
    Moves u t arr taken [] ∧ t.rx = [] ∧ script.arrivals = arr ++ rest.arrivals := by
  induction fuel generalizing u script rxCount console with
  | zero => exact absurd hfuel (Nat.not_lt_zero _)
  | succ fuel ih =>
    obtain ⟨w, hw⟩ : ∃ w, w = u.events (script.headD []) := ⟨_, rfl⟩
    have hmoves := Uart.events_moves hu (script.headD [])
    rw [← hw] at hmoves
    have hstatus : lineAct (.inb (com1 + regLsr)) (u, script) = (w.lineStatus, w, script.tail) := by
      rw [hw]
      rfl
    have hsplit := script.arrivals_eq
    simp only [serialHandler, perform, Prog.act_bind, Prog.ret_bind, Prog.run_act, hstatus]
    by_cases hrx : w.rx = []
    · rw [if_neg (not_not.2 (not_ne_iff.1 (mt w.lineStatus_dataReady.1 (not_not.2 hrx))))]
      refine ⟨w, script.tail, _, [], ?_, hmoves, hrx, hsplit⟩
      rw [Prog.pure_eq, Prog.run_ret, List.length_nil, Nat.add_zero, u32, Nat.mod_eq_of_lt hcount]
      rfl
    · rw [if_pos (w.lineStatus_dataReady.2 hrx)]
      have hserve := hmoves.config.symm ▸ hu
      obtain ⟨v, hv⟩ : ∃ v, v = w.events (script.tail.headD []) := ⟨_, rfl⟩
      have hmoves' := Uart.events_moves hserve (script.tail.headD [])
      rw [← hv] at hmoves'
      have hsplit' := LineScript.arrivals_eq script.tail
      obtain ⟨b, bs, hb⟩ := List.exists_cons_of_ne_nil (hmoves'.rx_ne_nil hrx)
      obtain ⟨hread, htake⟩ := Uart.read_data (hmoves'.config.symm ▸ hserve) hb
      have hdata : lineAct (.inb (com1 + regData)) (w, script.tail) =
          (b, { v with rx := bs }, script.tail.tail) := by
        rw [hv] at hread ⊢
        exact congrArg (fun r : UInt8 × Uart => (r.1, r.2, script.tail.tail)) hread
      have hall := (hmoves.trans hmoves').trans htake
      have hlen := hall.rx_length
      rw [hsplit, hsplit', List.length_append, List.length_append] at hfuel
      simp only [List.length_append, List.length_nil, List.length_singleton] at hlen
      have hfuel' : ({ v with rx := bs } : Uart).rx.length +
        (LineScript.arrivals script.tail.tail).length < fuel := by
        simp only at hlen ⊢
        omega
      have hcount' : u32 (rxCount + 1) < 2 ^ 32 := Nat.mod_lt _ (by decide)
      obtain ⟨t, rest, arr, taken, hrun, hrest, hempty, harr⟩ :=
        ih (hall.config.symm ▸ hu) hfuel' hcount' (shellPushChar (serialByte b) console)
      simp only [Prog.run_act, hdata, hrun]
      refine ⟨t, rest, _, b :: taken, ?_, hall.trans hrest, hempty, ?_⟩
      · rw [u32_add_succ, List.length_cons]
        rfl
      · rw [hsplit, hsplit', harr]
        simp only [List.append_assoc, List.nil_append]

end Handler

/-! ## Detection -/

section Detection

variable {u : Uart} (script : LineScript) (k : ℕ)

/-- What happens on the line before access `k`. -/
def LineScript.slot : List LineEvent := (script.drop k).headD []

/-- Access `k` is the write of a register. -/
def LineScript.put (reg : ℕ) (v : UInt8) (u : Uart) : Uart := (u.events (script.slot k)).write reg v

@[simp] theorem LineScript.put_config (reg : ℕ) (v : UInt8) (u : Uart) :
    (script.put k reg v u).config = u.config.write reg v := by
  rw [put, Uart.write_config, Uart.events_config]

theorem lineAct_outb (reg : ℕ) (v : UInt8) (u : Uart) :
    lineAct (.outb (com1 + reg) v) (u, script.drop k) =
      (0, script.put k reg v u, script.drop (k + 1)) := by
  rw [lineAct, PortOp.register, Nat.add_sub_cancel_left, List.tail_drop]
  rfl

theorem lineAct_inb (reg : ℕ) (u : Uart) :
    lineAct (.inb (com1 + reg)) (u, script.drop k) =
      (((u.events (script.slot k)).read reg).1, ((u.events (script.slot k)).read reg).2,
        script.drop (k + 1)) := by
  rw [lineAct, PortOp.register, Nat.add_sub_cancel_left, List.tail_drop]
  rfl

section Settings

variable {c : UartConfig}

/-- 8 bits, no parity, 1 stop bit. -/
theorem divisorAccess_of_format (h : c.lineControl = 0x03) : c.divisorAccess = false := by
  rw [UartConfig.divisorAccess, h]
  decide

/-- The loopback test. -/
theorem loopback_of_test (h : c.modemControl = 0x1E) : c.loopback = true := by
  rw [UartConfig.loopback, h]
  decide

/-- Normal operation. -/
theorem loopback_of_normal (h : c.modemControl = 0x0B) : c.loopback = false := by
  rw [UartConfig.loopback, h]
  decide

end Settings

/-- The settings before the loopback test. -/
theorem settings_eq (c : UartConfig) :
    (((((c.write 1 0x00).write 3 0x80).write 0 0x03).write 1 0x00).write 3 0x03).write 2 0xC7 =
      ⟨3, 0x03, c.modemControl, if c.divisorAccess then c.interruptEnable else 0x00, true⟩ := by
  have hon : ∀ c : UartConfig, (c.write 3 0x80).divisorAccess = true := by
    intro c
    rw [UartConfig.divisorAccess_write]
    decide
  have hset : ∀ c : UartConfig, c.divisorAccess = true →
      (((c.write 0 0x03).write 1 0x00).write 3 0x03).write 2 0xC7 =
        ⟨3, 0x03, c.modemControl, c.interruptEnable, true⟩ := by
    intro c hc
    have hlow : c.write 0 0x03 = { c with divisor := c.divisor / 2 ^ 8 * 2 ^ 8 + 3 } := if_pos hc
    have hhigh : { c with divisor := c.divisor / 2 ^ 8 * 2 ^ 8 + 3 }.write 1 0x00 =
        { c with divisor := (c.divisor / 2 ^ 8 * 2 ^ 8 + 3) % 2 ^ 8 + 0 * 2 ^ 8 } := if_pos hc
    have hdivisor : (c.divisor / 2 ^ 8 * 2 ^ 8 + 3) % 2 ^ 8 + 0 * 2 ^ 8 = 3 := by omega
    rw [hlow, hhigh, hdivisor]
    rfl
  rw [hset _ (hon _)]
  by_cases hc : c.divisorAccess
  · have hfirst : c.write 1 0x00 = { c with divisor := c.divisor % 2 ^ 8 + 0 * 2 ^ 8 } := if_pos hc
    rw [hfirst, if_pos hc]
    rfl
  · have hfirst : c.write 1 0x00 = { c with interruptEnable := 0x00 } := if_neg hc
    rw [hfirst, if_neg hc]
    rfl

/-- What comes in after the queues were cleared and before the loopback test. -/
def LineScript.early (c : UartConfig) : List UInt8 :=
  (if c.loopback then [] else LineEvent.arrivals (script.slot 6)) ++ LineEvent.arrivals
    (script.slot 7)

/-- The port with its queues cleared. -/
def LineScript.cleared (u : Uart) : Uart :=
  script.put 5 2 0xC7 <| script.put 4 3 0x03 <| script.put 3 1 0x00 <| script.put 2 0 0x03 <|
    script.put 1 3 0x80 <| script.put 0 1 0x00 u

/-- The port when the answer of the loopback test is read. -/
def LineScript.tested (u : Uart) : Uart :=
  (script.put 8 0 0xAE <| script.put 7 4 0x1E <| script.put 6 4 0x0B <| script.cleared u).events
    (script.slot 9)

theorem serialInit_run (u : Uart) : Prog.run lineAct serialInit (u, script) =
    if ((script.tested u).read 0).1 = 0xAE then
      some (1, script.put 11 1 0x01 (script.put 10 4 0x0B ((script.tested u).read 0).2),
        script.drop 12)
    else some (0, script.put 10 4 0x0B ((script.tested u).read 0).2, script.drop 11) := by
  have hdrop : script.drop 0 = script := List.drop_zero
  have hrun : Prog.run lineAct serialInit (u, script.drop 0) =
      if ((script.tested u).read 0).1 = 0xAE then
        some (1, script.put 11 1 0x01 (script.put 10 4 0x0B ((script.tested u).read 0).2),
          script.drop 12)
      else some (0, script.put 10 4 0x0B ((script.tested u).read 0).2, script.drop 11) := by
    simp only [serialInit, perform, Prog.act_bind, Prog.ret_bind, Prog.run_act, lineAct_outb,
      lineAct_inb, Nat.reduceAdd]
    change Prog.run lineAct
      (if (if ((script.tested u).read 0).1 = 0xAE then 1 else 0) ≠ 0 then
        .act (.outb (com1 + 1) 0x01) fun _ => .ret
          (if ((script.tested u).read 0).1 = 0xAE then 1 else 0)
      else .ret (if ((script.tested u).read 0).1 = 0xAE then 1 else 0))
      (script.put 10 4 0x0B ((script.tested u).read 0).2, script.drop 11) = _
    by_cases h : ((script.tested u).read 0).1 = 0xAE
    · simp only [if_pos h]
      rw [if_pos Nat.one_ne_zero, Prog.run_act, lineAct_outb]
      rfl
    · simp only [if_neg h]
      rfl
  rwa [hdrop] at hrun

theorem LineScript.cleared_spec (u : Uart) : (script.cleared u).rx = [] ∧
    (script.cleared u).tx = [] ∧
    (script.cleared u).config =
      ⟨3, 0x03, u.config.modemControl, if u.config.divisorAccess then u.config.interruptEnable else
        0x00, true⟩ := by
  refine ⟨rfl, rfl, ?_⟩
  simp only [cleared, put_config]
  exact settings_eq u.config

/-- The settings while the port is set up, with this mode of operation. -/
def UartConfig.setUp (c : UartConfig) (mode : UInt8) : UartConfig :=
  ⟨3, 0x03, mode, if c.divisorAccess then c.interruptEnable else 0x00, true⟩

/-- The port has left loopback, should it have been in it. -/
theorem LineScript.normal_spec (u : Uart) :
    (script.put 6 4 0x0B (script.cleared u)).tx = [] ∧
    (script.put 6 4 0x0B (script.cleared u)).rx =
      (if u.config.loopback then [] else LineEvent.arrivals (script.slot 6)).take 16 ∧
    (script.put 6 4 0x0B (script.cleared u)).config = UartConfig.setUp u.config 0x0B := by
  obtain ⟨hrx, htx, hconfig⟩ := script.cleared_spec u
  generalize script.cleared u = w at hrx htx hconfig
  have hl : w.config.loopback = u.config.loopback := by rw [hconfig]; rfl
  have hdepth : w.config.depth = 16 := by rw [hconfig]; rfl
  have hevents : (w.events (script.slot 6)).tx = [] ∧ (w.events (script.slot 6)).rx =
      (if u.config.loopback then [] else LineEvent.arrivals (script.slot 6)).take 16 := by
    by_cases hloop : u.config.loopback = true
    · rw [Uart.events_of_loopback (hl.trans hloop) htx, if_pos hloop]
      exact ⟨htx, hrx⟩
    · obtain ⟨hline, harrived⟩ :=
        Uart.events_of_line (hl.trans (Bool.eq_false_iff.2 hloop)) htx (script.slot 6)
      rw [if_neg hloop, harrived, hrx, hdepth]
      exact ⟨hline, rfl⟩
  refine ⟨hevents.1, hevents.2, ?_⟩
  rw [put_config, hconfig]
  rfl

/-- The port when the loopback test begins. -/
def LineScript.looped (u : Uart) :
    Uart := script.put 7 4 0x1E (script.put 6 4 0x0B (script.cleared u))

theorem LineScript.looped_spec (u : Uart) :
    (script.looped u).tx = [] ∧ (script.looped u).rx = (script.early u.config).take 16 ∧
    (script.looped u).config = UartConfig.setUp u.config 0x1E := by
  obtain ⟨htx, hrx, hconfig⟩ := script.normal_spec u
  unfold looped
  generalize script.put 6 4 0x0B (script.cleared u) = w at htx hrx hconfig
  have hline : w.config.loopback = false := loopback_of_normal (hconfig ▸ rfl)
  have hdepth : w.config.depth = 16 := by rw [hconfig]; rfl
  obtain ⟨htx', hrx'⟩ := Uart.events_of_line hline htx (script.slot 7)
  refine ⟨htx', hrx'.trans ?_, ?_⟩
  · rw [hrx, hdepth, early, List.take_append, List.length_take]
    congr 2
    omega
  · rw [put_config, hconfig]
    rfl

/-- The byte of the test is in the transmitter. -/
theorem LineScript.put_test (u : Uart) :
    script.put 8 0 0xAE (script.looped u) = { script.looped u with tx := [0xAE] } := by
  obtain ⟨htx, -, hconfig⟩ := script.looped_spec u
  generalize script.looped u = w at htx hconfig
  have hloop : w.config.loopback = true := loopback_of_test (hconfig ▸ rfl)
  have hdata : w.config.divisorAccess = false := divisorAccess_of_format (hconfig ▸ rfl)
  have hdepth : w.config.depth = 16 := by rw [hconfig]; rfl
  have hkeep : w.config.write 0 0xAE = w.config := if_neg (by simp [hdata])
  rw [put, Uart.events_of_loopback hloop htx, Uart.write]
  dsimp only
  rw [if_pos ⟨by simp [hdata], by rw [htx, hdepth]; decide⟩, htx, hkeep]
  rfl

/-- **What the loopback test finds**: what came in before, and what has come back. -/
theorem LineScript.tested_spec (u : Uart) :
    (script.tested u).rx =
      (script.early u.config ++ if LineEvent.shift ∈ script.slot 9 then [0xAE] else []).take 16 ∧
    (script.tested u).config = UartConfig.setUp u.config 0x1E ∧
    (LineEvent.shift ∈ script.slot 9 → (script.tested u).tx = []) := by
  obtain ⟨-, hrx, hconfig⟩ := script.looped_spec u
  have htested : script.tested u = (script.put 8 0 0xAE (script.looped u)).events
    (script.slot 9) := rfl
  rw [htested, put_test]
  generalize script.looped u = w at hrx hconfig
  have hloop : w.config.loopback = true := loopback_of_test (hconfig ▸ rfl)
  have hdepth : w.config.depth = 16 := by rw [hconfig]; rfl
  have hevents := Uart.events_of_loopback_byte (u := { w with tx := [0xAE] }) hloop (c := 0xAE) rfl
    (script.slot 9)
  refine ⟨?_, (Uart.events_config _ _).trans hconfig, fun hshift => ?_⟩
  · by_cases hshift : LineEvent.shift ∈ script.slot 9
    · rw [hevents, if_pos hshift, if_pos hshift, Uart.receive, hdepth]
      dsimp only
      rw [hrx, List.take_append, List.length_take]
      split_ifs with hroom
      · rw [List.take_of_length_le (l := [0xAE])]
        rw [List.length_singleton]
        omega
      · have hfull : 16 - (script.early u.config).length = 0 := by omega
        rw [hfull, List.take_zero, List.append_nil]
    · rw [hevents, if_neg hshift, if_neg hshift, List.append_nil]
      exact hrx
  · rw [hevents, if_pos hshift, Uart.receive_tx]

/-- The test finds its byte first. -/
def LineScript.Found (u : Uart) : Prop :=
  (script.early u.config).head? = some 0xAE ∨
    script.early u.config = [] ∧ LineEvent.shift ∈ script.slot 9

instance (u : Uart) : Decidable (script.Found u) := inferInstanceAs (Decidable (_ ∨ _))

theorem LineScript.read_tested (u : Uart) :
    (script.tested u).read 0 = ((script.tested u).rx.head?.getD 0,
      { script.tested u with rx := (script.tested u).rx.tail }) ∧
    ((script.tested u).rx.head?.getD 0 = 0xAE ↔ script.Found u) := by
  obtain ⟨hrx, hconfig, -⟩ := script.tested_spec u
  refine ⟨Uart.read_data_eq (divisorAccess_of_format (hconfig ▸ rfl)), ?_⟩
  rw [hrx, List.head?_take, if_neg (by decide), Found]
  cases script.early u.config with
  | nil => split_ifs with hshift <;> simp [hshift]
  | cons b bs => simp

/-- The port back in normal operation. -/
def LineScript.restored (u : Uart) : Uart := script.put 10 4 0x0B ((script.tested u).read 0).2

theorem LineScript.restored_config (u : Uart) :
    (script.restored u).config = UartConfig.setUp u.config 0x0B := by
  rw [restored, put_config, (script.read_tested u).1, (script.tested_spec u).2.1]
  rfl

/-- With nothing early and the byte of the test back, the queues are empty. -/
theorem LineScript.restored_empty (u : Uart) (hquiet : script.early u.config = [])
    (hshift : LineEvent.shift ∈ script.slot 9) :
    (script.restored u).tx = [] ∧ (script.restored u).rx = [] := by
  obtain ⟨hrx, hconfig, htx⟩ := script.tested_spec u
  rw [restored, (script.read_tested u).1]
  have hloop : (script.tested u).config.loopback = true := loopback_of_test (hconfig ▸ rfl)
  rw [put,
    Uart.events_of_loopback (u := { script.tested u with rx := (script.tested u).rx.tail }) hloop
    (htx hshift)]
  refine ⟨htx hshift, ?_⟩
  show (script.tested u).rx.tail = []
  rw [hrx, hquiet, if_pos hshift]
  rfl

/-- **`serial_init`**, whatever happens on the line. -/
theorem serialInit_spec (u : Uart) : ∃ t rest,
    Prog.run lineAct serialInit (u, script) = some (if script.Found u then 1 else 0, t, rest) ∧
    t.config =
      (if script.Found u then ⟨3, 0x03, 0x0B, 0x01, true⟩ else UartConfig.setUp u.config 0x0B) ∧
    (script.early u.config = [] → LineEvent.shift ∈ script.slot 9 →
      t.tx = [] ∧ t.rx = (LineEvent.arrivals (script.slot 11)).take 16) := by
  have hrun := serialInit_run script u
  have hconfig := script.restored_config u
  have hempty := script.restored_empty u
  obtain ⟨hread, hfound⟩ := script.read_tested u
  rw [show ((script.tested u).read 0).1 = (script.tested u).rx.head?.getD 0 by rw [hread]] at hrun
  simp only [hfound] at hrun
  change _ = if script.Found u then some (1, script.put 11 1 0x01 (script.restored u), _)
    else some (0, script.restored u, _) at hrun
  generalize script.restored u = w at hrun hconfig hempty
  by_cases h : script.Found u
  · rw [if_pos h] at hrun
    refine ⟨_, _, by rw [hrun, if_pos h], ?_, fun hquiet hshift => ?_⟩
    · rw [if_pos h, script.put_config, hconfig]
      exact if_neg (Bool.eq_false_iff.1 (divisorAccess_of_format rfl))
    · obtain ⟨htx, hrx⟩ := hempty hquiet hshift
      have hline : w.config.loopback = false := loopback_of_normal (hconfig ▸ rfl)
      obtain ⟨htx', hrx'⟩ := Uart.events_of_line hline htx (script.slot 11)
      rw [show w.config.depth = 16 by rw [hconfig]; rfl, hrx] at hrx'
      exact ⟨htx', hrx'⟩
  · rw [if_neg h] at hrun
    exact ⟨_, _, by rw [hrun, if_neg h], by rw [if_neg h, hconfig],
      fun hquiet hshift => absurd (Or.inr ⟨hquiet, hshift⟩) h⟩

end Detection

theorem serialWrite_zero (text : List UInt8) (txCount : ℕ) :
    serialWrite 0 text txCount = .ret txCount := by
  induction text generalizing txCount with
  | nil => rfl
  | cons c text ih => exact ih txCount

/-- A port after reset. -/
def resetPort : Uart := ⟨⟨0, 0, 0, 0, false⟩, [], [], [], [], 0⟩

/-- What may happen before an access of `serial_write`: something on the line, or an interrupt, with
what happens on the line meanwhile. -/
inductive Happening
  | line (e : LineEvent)
  | irq (script : LineScript)

/-- The port, the variables of the input side, and what will happen before each access. -/
structure SerialSystem where
  uart : Uart
  rxCount : ℕ
  console : Console
  script : ℕ → List Happening
  time : ℕ

namespace SerialSystem

/-- `serial_handler` runs. -/
def irq (script : LineScript) (s : SerialSystem) : SerialSystem :=
  match Prog.run lineAct
    (serialHandler (s.uart.rx.length + script.arrivals.length + 1) s.rxCount s.console)
      (s.uart, script) with
  | some ((rxCount, console), uart, _) =>
    { s with uart := uart, rxCount := rxCount, console := console }
  | none => s

def happen (s : SerialSystem) : Happening → SerialSystem
  | .line e => { s with uart := s.uart.event e }
  | .irq script => s.irq script

/-- An access of `serial_write`, after what happens before it. -/
def act (op : PortOp) (s : SerialSystem) : UInt8 × SerialSystem :=
  let t := (s.script s.time).foldl happen s
  let r := t.uart.access op.register
  (r.1, { t with uart := r.2, time := s.time + 1 })

/-- The port is set up, and `rx_count` is a `uint32_t`. -/
structure Ready (s : SerialSystem) : Prop where
  service : s.uart.config.InService
  count : s.rxCount < 2 ^ 32

/-- A period in which the bytes `taken` were pushed to the shell and the bytes `given` were given to
the transmitter. -/
structure Conveys (s t : SerialSystem) (taken given : List UInt8) : Prop where
  moves : ∃ arr, Uart.Moves s.uart t.uart arr taken given
  rxCount : t.rxCount = u32 (s.rxCount + taken.length)
  console : t.console = pushBytes taken s.console
  script : t.script = s.script

/-- In any `txSpinLimit + 1` accesses the transmitter has time for a byte. -/
def Lively (script : ℕ → List Happening) :
    Prop := ∀ k, ∃ i ≤ txSpinLimit, .line .shift ∈ script (k + i)

theorem u32_add_add (n a b : ℕ) : u32 (u32 (n + a) + b) = u32 (n + (a + b)) := by
  simp only [u32]
  omega

namespace Conveys

variable {s t w : SerialSystem} {taken taken' given given' : List UInt8}

theorem refl (h : s.Ready) : Conveys s s [] [] :=
  ⟨⟨[], .refl _⟩, (Nat.mod_eq_of_lt h.count).symm, rfl, rfl⟩

theorem trans (h : Conveys s t taken given) (h' : Conveys t w taken' given') :
    Conveys s w (taken ++ taken') (given ++ given') := by
  obtain ⟨arr, hmoves⟩ := h.moves
  obtain ⟨arr', hmoves'⟩ := h'.moves
  refine ⟨⟨_, hmoves.trans hmoves'⟩, ?_, ?_, h'.script.trans h.script⟩
  · rw [h'.rxCount, h.rxCount, u32_add_add, List.length_append]
  · rw [h'.console, h.console, pushBytes, pushBytes, pushBytes, List.foldl_append]

theorem ready (h : Conveys s t taken given) (hs : s.Ready) : t.Ready := by
  obtain ⟨arr, hmoves⟩ := h.moves
  exact ⟨hmoves.config.symm ▸ hs.service, h.rxCount ▸ Nat.mod_lt _ (by decide)⟩

theorem tx_length (h : Conveys s t taken given) :
    t.uart.tx.length ≤ s.uart.tx.length + given.length := by
  obtain ⟨arr, hmoves⟩ := h.moves
  exact hmoves.tx_length

end Conveys

variable {s : SerialSystem}

/-- **`serial_handler`**, whenever it runs. -/
theorem irq_spec (hs : s.Ready) (script : LineScript) :
    ∃ taken, Conveys s (s.irq script) taken [] ∧ (s.irq script).uart.rx = [] ∧
      (s.irq script).time = s.time := by
  obtain ⟨t, rest, arr, taken, hrun, hmoves, hempty, -⟩ :=
    serialHandler_spec hs.service (Nat.lt_succ_self (s.uart.rx.length + script.arrivals.length))
      hs.count s.console
  have hirq : s.irq script = { s with
      uart := t, rxCount := u32 (s.rxCount + taken.length), console :=
        pushBytes taken s.console } := by
    rw [irq, hrun]
  rw [hirq]
  exact ⟨taken, ⟨⟨arr, hmoves⟩, rfl, rfl, rfl⟩, hempty, rfl⟩

theorem happen_conveys (hs : s.Ready) (x : Happening) :
    ∃ taken, Conveys s (s.happen x) taken [] ∧ (s.happen x).time = s.time := by
  cases x with
  | line e =>
    exact ⟨[], ⟨⟨_, Uart.event_moves hs.service e⟩, (Nat.mod_eq_of_lt hs.count).symm, rfl,
      rfl⟩, rfl⟩
  | irq script =>
    obtain ⟨taken, hconveys, -, htime⟩ := irq_spec hs script
    exact ⟨taken, hconveys, htime⟩

theorem happenings_conveys (hs : s.Ready) (l : List Happening) :
    ∃ taken, Conveys s (l.foldl happen s) taken [] ∧ (l.foldl happen s).time = s.time := by
  induction l generalizing s with
  | nil => exact ⟨[], .refl hs, rfl⟩
  | cons x l ih =>
    obtain ⟨taken, hx, htime⟩ := happen_conveys hs x
    obtain ⟨taken', hl, htime'⟩ := ih (hx.ready hs)
    exact ⟨_, hx.trans hl, htime'.trans htime⟩

/-- A byte in the transmitter is gone after it had time for it. -/
theorem tx_of_shift (hs : s.Ready) (htx : s.uart.tx.length ≤ 1) {l : List Happening}
    (hl : .line .shift ∈ l) :
    (l.foldl happen s).uart.tx = [] := by
  obtain ⟨l₁, l₂, rfl⟩ := List.append_of_mem hl
  rw [List.foldl_append, List.foldl_cons]
  obtain ⟨taken, hbefore, -⟩ := happenings_conveys hs l₁
  generalize l₁.foldl happen s = t at hbefore
  have ht := hbefore.ready hs
  have hlen := hbefore.tx_length
  have htail : (t.happen (.line .shift)).uart.tx = t.uart.tx.tail := Uart.tx_shiftOut t.uart
  obtain ⟨_, hshift, -⟩ := happen_conveys ht (.line .shift)
  obtain ⟨taken', hafter, -⟩ := happenings_conveys (hshift.ready ht) l₂
  have hlen' := hafter.tx_length
  rw [htail, List.length_tail] at hlen'
  simp only [List.length_nil] at hlen hlen'
  exact List.eq_nil_of_length_eq_zero (by omega)

/-- What an access finds. -/
theorem act_eq (op : PortOp) (hs : s.Ready) : ∃ t taken, Conveys s t taken [] ∧
    act op s = ((t.uart.access op.register).1,
      { t with uart := (t.uart.access op.register).2, time := s.time + 1 }) ∧
    (s.uart.tx.length ≤ 1 → .line .shift ∈ s.script s.time → t.uart.tx = []) := by
  obtain ⟨taken, hconveys, -⟩ := happenings_conveys hs (s.script s.time)
  exact ⟨_, taken, hconveys, rfl, fun htx hl => tx_of_shift hs htx hl⟩

/-- Another time makes no difference. -/
theorem Conveys.at_time {t : SerialSystem} {taken given : List UInt8} (h : Conveys s t taken given)
    (n : ℕ) :
    Conveys s { t with time := n } taken given := ⟨h.moves, h.rxCount, h.console, h.script⟩

/-- **The wait** ends with an empty transmitter, or finds none in all its rounds. -/
theorem txWait_spec (spins : ℕ) (hs : s.Ready) :
    ∃ b t taken, Prog.run act (txWait spins) s = some (b, t) ∧
    Conveys s t taken [] ∧ (b = true → t.uart.tx = []) ∧
    (s.uart.tx.length ≤ 1 → (∃ i ≤ spins, .line .shift ∈ s.script (s.time + i)) → b = true) := by
  induction spins generalizing s with
  | zero =>
    obtain ⟨t, taken, hconveys, hact, hshift⟩ := act_eq (.inb (com1 + regLsr)) hs
    have hstatus : act (.inb (com1 + regLsr)) s =
      (t.uart.lineStatus, { t with time := s.time + 1 }) := hact
    refine ⟨decide (t.uart.lineStatus &&& lsrThrEmpty ≠ 0), { t with time := s.time + 1 },
      taken, ?_, hconveys.at_time _, fun hb => ?_, fun htx hl => ?_⟩
    · simp only [txWait, perform, Prog.act_bind, Prog.ret_bind, Prog.run_act, hstatus]
      rfl
    · exact t.uart.lineStatus_txEmpty.1 (of_decide_eq_true hb)
    · obtain ⟨i, hi, hl⟩ := hl
      obtain rfl := Nat.le_zero.1 hi
      exact decide_eq_true (t.uart.lineStatus_txEmpty.2 (hshift htx hl))
  | succ spins ih =>
    obtain ⟨t, taken, hconveys, hact, hshift⟩ := act_eq (.inb (com1 + regLsr)) hs
    have hstatus : act (.inb (com1 + regLsr)) s =
      (t.uart.lineStatus, { t with time := s.time + 1 }) := hact
    have hnext := hconveys.at_time (s.time + 1)
    simp only [txWait, perform, Prog.act_bind, Prog.ret_bind, Prog.run_act, hstatus]
    by_cases htx : t.uart.tx = []
    · rw [if_pos (t.uart.lineStatus_txEmpty.2 htx)]
      exact ⟨true, _, taken, rfl, hnext, fun _ => htx, fun _ _ => rfl⟩
    · rw [if_neg (mt t.uart.lineStatus_txEmpty.1 htx)]
      obtain ⟨b, w, taken', hrun, hrest, hb, hlive⟩ := ih (hnext.ready hs)
      refine ⟨b, w, _, hrun, hnext.trans hrest, hb, fun hlen hl => ?_⟩
      obtain ⟨i, hi, hl⟩ := hl
      refine hlive (hnext.tx_length.trans (by simpa using hlen)) ?_
      cases i with
      | zero => exact absurd (hshift hlen hl) htx
      | succ i =>
        refine ⟨i, Nat.le_of_succ_le_succ hi, ?_⟩
        have hscript : ({ t with time := s.time + 1 } : SerialSystem).script = s.script :=
          hconveys.script
        rw [hscript]
        simp only
        rwa [Nat.add_assoc, Nat.add_comm 1 i]

/-! ### Programs that send a text -/

/-- The program, given `tx_count`, gives bytes of the text to the transmitter and counts them, and
all of them if there is time. -/
def Sends (p : ℕ → SerialM ℕ) (text : List UInt8) : Prop :=
  ∀ s : SerialSystem, s.Ready → ∀ n < 2 ^ 32, ∃ t taken given,
    Prog.run act (p n) s = some (u32 (n + given.length), t) ∧ Conveys s t taken given ∧
      List.Sublist given text ∧
    (s.uart.tx.length ≤ 1 → t.uart.tx.length ≤ 1 ∧ (Lively s.script → given = text))

theorem sends_nil : Sends (fun n => .ret n) [] := by
  intro s hs n hn
  refine ⟨s, [], [], ?_, .refl hs, List.Sublist.refl _, fun h => ⟨h, fun _ => rfl⟩⟩
  rw [Prog.run_ret, List.length_nil, Nat.add_zero, u32, Nat.mod_eq_of_lt hn]

/-- **A sequence** sends one text after the other. -/
theorem Sends.append {p q : ℕ → SerialM ℕ} {text text' : List UInt8} (hp : Sends p text)
    (hq : Sends q text') :
    Sends (fun n => p n >>= q) (text ++ text') := by
  intro s hs n hn
  obtain ⟨t, taken, given, hrun, hconveys, hsub, hall⟩ := hp s hs n hn
  obtain ⟨w, taken', given', hrun', hconveys', hsub', hall'⟩ :=
    hq t (hconveys.ready hs) (u32 (n + given.length))
    (Nat.mod_lt _ (by decide))
  refine ⟨w, _, _, ?_, hconveys.trans hconveys', hsub.append hsub', fun hlen => ?_⟩
  · rw [Prog.run_bind_of_run act hrun, hrun', u32_add_add, List.length_append]
  · obtain ⟨hlen, heq⟩ := hall hlen
    obtain ⟨hlen', heq'⟩ := hall' hlen
    refine ⟨hlen', fun hlive => ?_⟩
    rw [heq hlive, heq' (hconveys.script ▸ hlive)]

theorem sends_tx (c : UInt8) : Sends (tx c) [c] := by
  intro s hs n hn
  obtain ⟨b, t, taken, hrun, hconveys, hb, hlive⟩ := txWait_spec txSpinLimit hs
  have ht := hconveys.ready hs
  cases b with
  | false =>
    refine ⟨t, taken, [], ?_, hconveys, List.nil_sublist _, fun hlen => ⟨?_, fun hl => ?_⟩⟩
    · have hcount : u32 (n + ([] : List UInt8).length) = n := Nat.mod_eq_of_lt hn
      rw [tx, Prog.run_bind_of_run act hrun, hcount]
      rfl
    · exact hconveys.tx_length.trans (by simpa using hlen)
    · exact absurd (hlive hlen (hl s.time)) Bool.false_ne_true
  | true =>
    obtain ⟨w, taken', hconveys', hact, -⟩ := act_eq (.outb (com1 + regData) c) ht
    have hw : w.uart.tx = [] := by
      have hlen := hconveys'.tx_length
      rw [hb rfl] at hlen
      exact List.eq_nil_of_length_eq_zero (Nat.le_zero.1 hlen)
    obtain ⟨hwrite, hgive⟩ := Uart.write_data (hconveys'.ready ht).service hw c
    have hlast : act (.outb (com1 + regData) c) t =
        (0, { w with uart := { w.uart with tx := [c] }, time := t.time + 1 }) := by
      rw [hact, ← hwrite]
      rfl
    have hgiven : Conveys w { w with uart := { w.uart with tx := [c] }, time := t.time + 1 }
      [] [c] :=
      ⟨⟨_, hgive⟩, (Nat.mod_eq_of_lt (hconveys'.ready ht).count).symm, rfl, rfl⟩
    refine ⟨_, _, [c], ?_, (hconveys.trans hconveys').trans hgiven, List.Sublist.refl _,
      fun _ => ⟨le_rfl, fun _ => rfl⟩⟩
    rw [tx, Prog.run_bind_of_run act hrun]
    simp only [if_true, perform, Prog.act_bind, Prog.ret_bind, Prog.run_act, hlast]
    rfl

theorem sends_serialWriteChar {ready : ℕ} (hready : ready ≠ 0) (c : UInt8) :
    Sends (serialWriteChar ready c) (sent [c]) := by
  unfold serialWriteChar
  simp only [if_neg hready]
  by_cases hc : c = newlineChar
  · subst hc
    simp only [if_true]
    exact (sends_tx returnChar).append (sends_tx newlineChar)
  · simp only [if_neg hc]
    have hsent : sent [c] = [c] := Text.insertBefore_cons_of_ne hc
    rw [hsent]
    exact sends_tx c

theorem sends_serialWrite {ready : ℕ} (hready : ready ≠ 0) (text : List UInt8) :
    Sends (serialWrite ready text) (sent text) := by
  induction text with
  | nil => exact sends_nil
  | cons c text ih =>
    have hsent : sent (c :: text) = sent [c] ++ sent text := by
      simp [sent, Text.insertBefore]
    rw [hsent]
    exact (sends_serialWriteChar hready c).append ih

end SerialSystem

/-- A port with a lively line, on which the handler receives a byte before each access. -/
def livelyPort : SerialSystem :=
  ⟨⟨⟨3, 0x03, 0x0B, 0x01, true⟩, [], [], [], [], 0⟩, 0, emptyLine,
    fun _ => [.line .shift, .irq [[.arrive 104]]], 0⟩

end JarvisOS
