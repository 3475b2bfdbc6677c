import JarvisOS.Console.Numbers

/-!
# Sleeping

`timer_sleep` computes the tick at which it will return, and halts until the tick counter is there.
The processor may run other tasks while it is halted, so that several ticks come between two checks
of the counter; a run is given by how many come each time. The product `ms * TIMER_HZ`, the tick to
wait for and the counter itself all wrap around at 32 bits, and each of them can end the sleep too
early or prolong it (`sleeps_right_iff`).
-/

namespace JarvisOS

open Foundations

/-- `TIMER_HZ`. -/
abbrev timerHz : UInt32 := 100

/-- `timer_tick`, on `ticks`. -/
def timerTick (ticks : UInt32) : UInt32 := ticks + 1

/-- Some timer interrupts. -/
def deliver (n : ℕ) (ticks : UInt32) : UInt32 := timerTick^[n] ticks

/-- The loop of `timer_sleep`. `waits` are the numbers of ticks delivered during each `hlt`; the
result is how many of them are executed, if the loop ends before `waits` does. -/
def sleepLoop (target ticks : UInt32) : List ℕ → Option ℕ
  | [] => if ticks < target then none else some 0
  | wait :: waits =>
    if ticks < target then (sleepLoop target (deliver wait ticks) waits).map (· + 1) else some 0

/-- `timer_sleep`. Some ticks may be delivered after the counter is read and before the loop reads
it again. -/
def timerSleep (ticks ms : UInt32) (before : ℕ) (waits : List ℕ) : Option ℕ :=
  let target := ticks + ms * timerHz / 1000
  sleepLoop target (deliver before ticks) waits

/-- What `cmd_sleep` passes to `timer_sleep`, if it does. -/
def cmdSleepMs (args : List UInt8) : Option UInt32 :=
  let ms := atoi args
  if ms ≤ 0 then none else some ms.toUInt32

/-! ## Runs of the loop -/

/-- The number of ticks delivered before check `k`. -/
def delivered (before : ℕ) (waits : List ℕ) (k : ℕ) : ℕ := before + (waits.take k).sum

theorem delivered_zero (before : ℕ) (waits : List ℕ) : delivered before waits 0 = before := by
  rw [delivered, List.take_zero, List.sum_nil, Nat.add_zero]

theorem delivered_succ {before : ℕ} {waits : List ℕ} {k : ℕ} (hk : k < waits.length) :
    delivered before waits (k + 1) = delivered before waits k + waits[k] := by
  rw [delivered, List.take_add_one, List.getElem?_eq_getElem hk, Option.toList_some,
    List.sum_append, List.sum_singleton, delivered, Nat.add_assoc]

/-- The number of ticks that `timer_sleep` is to wait for. -/
def sleepTicks (ms : UInt32) : ℕ := ms.toNat * timerHz.toNat / 1000

/-- The condition of the loop, after `d` ticks. -/
def Asleep (ticks ms : UInt32) (d : ℕ) : Prop :=
  (ticks.toNat + d) % 2 ^ 32 < (ticks.toNat + ms.toNat * 100 % 2 ^ 32 / 1000) % 2 ^ 32

theorem toNat_deliver (n : ℕ) (ticks : UInt32) :
    (deliver n ticks).toNat = (ticks.toNat + n) % 2 ^ 32 := by
  induction n with
  | zero => exact (Nat.mod_eq_of_lt ticks.toNat_lt).symm
  | succ n ih =>
    rw [deliver, Function.iterate_succ_apply', timerTick, UInt32.toNat_add]
    change ((deliver n ticks).toNat + 1) % 2 ^ 32 = _
    rw [ih]
    omega

theorem deliver_deliver (m n : ℕ) (ticks : UInt32) :
    deliver m (deliver n ticks) = deliver (n + m) ticks := by
  rw [deliver, deliver, ← Function.iterate_add_apply, Nat.add_comm]
  rfl

section FirstCheck

variable {P : ℕ → Prop}

/-- Check 0 is the first to fail when it fails. -/
theorem eq_zero_iff_first (h0 : ¬ P 0) (n k : ℕ) :
    0 = k ↔ k ≤ n ∧ ¬ P k ∧ ∀ j < k, P j := by
  constructor
  · rintro rfl
    exact ⟨Nat.zero_le n, h0, fun j hj => absurd hj (Nat.not_lt_zero j)⟩
  · rintro ⟨-, -, hall⟩
    by_contra hk
    exact h0 (hall 0 (Nat.pos_of_ne_zero (Ne.symm hk)))

/-- When check 0 succeeds, the first to fail is among the others. -/
theorem first_succ_iff (h0 : P 0) (n k : ℕ) :
    (∃ j, (j ≤ n ∧ ¬ P (j + 1) ∧ ∀ i < j, P (i + 1)) ∧ j + 1 = k) ↔
      k ≤ n + 1 ∧ ¬ P k ∧ ∀ i < k, P i := by
  constructor
  · rintro ⟨j, ⟨hle, hnot, hall⟩, rfl⟩
    refine ⟨Nat.succ_le_succ hle, hnot, fun i hi => ?_⟩
    cases i with
    | zero => exact h0
    | succ i => exact hall i (Nat.lt_of_succ_lt_succ hi)
  · rintro ⟨hle, hnot, hall⟩
    cases k with
    | zero => exact absurd h0 hnot
    | succ k =>
      exact ⟨k, ⟨Nat.le_of_succ_le_succ hle, hnot, fun i hi => hall _ (Nat.succ_lt_succ hi)⟩, rfl⟩

end FirstCheck

/-- The condition of the loop at check `j`. -/
def LoopsAt (target ticks : UInt32) (before : ℕ) (waits : List ℕ) (j : ℕ) : Prop :=
  deliver (delivered before waits j) ticks < target

theorem loopsAt_zero {target ticks : UInt32} {before : ℕ} {waits : List ℕ} :
    LoopsAt target ticks before waits 0 ↔ deliver before ticks < target := by
  rw [LoopsAt, delivered_zero]

theorem loopsAt_succ {target ticks : UInt32} {before wait : ℕ} {waits : List ℕ} (j : ℕ) :
    LoopsAt target ticks before (wait :: waits) (j + 1) ↔
      LoopsAt target ticks (before + wait) waits j := by
  rw [LoopsAt, LoopsAt, delivered, delivered, List.take_succ_cons, List.sum_cons, Nat.add_assoc]

/-- **The loop ends** at the first check whose condition fails. -/
theorem sleepLoop_eq_some_iff {target ticks : UInt32} {waits : List ℕ} {before k : ℕ} :
    sleepLoop target (deliver before ticks) waits = some k ↔ k ≤ waits.length ∧
      ¬ LoopsAt target ticks before waits k ∧ ∀ j < k, LoopsAt target ticks before waits j := by
  induction waits generalizing before k with
  | nil =>
    unfold sleepLoop
    by_cases hasleep : deliver before ticks < target
    · -- the run ends while the loop goes on
      rw [if_pos hasleep]
      refine iff_of_false (Option.some_ne_none k).symm ?_
      rintro ⟨hk, hnot, -⟩
      rw [Nat.le_zero.1 hk] at hnot
      exact hnot (loopsAt_zero.2 hasleep)
    · rw [if_neg hasleep, Option.some_inj]
      exact eq_zero_iff_first (mt loopsAt_zero.1 hasleep) 0 k
  | cons wait waits ih =>
    unfold sleepLoop
    by_cases hasleep : deliver before ticks < target
    · rw [if_pos hasleep, deliver_deliver, Option.map_eq_some_iff, List.length_cons,
        ← first_succ_iff (loopsAt_zero.2 hasleep)]
      simp only [ih, loopsAt_succ]
    · rw [if_neg hasleep, Option.some_inj]
      exact eq_zero_iff_first (mt loopsAt_zero.1 hasleep) _ k

/-- **A run of `timer_sleep`**, in terms of the ticks delivered. -/
theorem timerSleep_eq_some_iff {ticks ms : UInt32} {before : ℕ} {waits : List ℕ} {k : ℕ} :
    timerSleep ticks ms before waits = some k ↔ k ≤ waits.length ∧
      ¬ Asleep ticks ms (delivered before waits k) ∧
      ∀ j < k, Asleep ticks ms (delivered before waits j) := by
  have hasleep (d : ℕ) : deliver d ticks < ticks + ms * timerHz / 1000 ↔ Asleep ticks ms d := by
    rw [UInt32.lt_iff_toNat_lt, toNat_deliver, UInt32.toNat_add, UInt32.toNat_div, UInt32.toNat_mul]
    rfl
  simp only [timerSleep, sleepLoop_eq_some_iff, LoopsAt, hasleep]

/-! ## Sleeping long enough -/

/-- `timer_sleep` returns only after the ticks it is to wait for, and at the first check after
them. -/
structure SleepsRight (ticks ms : UInt32) (before : ℕ) (waits : List ℕ) : Prop where
  enough : ∀ k, timerSleep ticks ms before waits = some k → sleepTicks ms ≤ delivered before waits k
  prompt : ∀ k ≤ waits.length, sleepTicks ms ≤ delivered before waits k →
    (∀ j < k, delivered before waits j < sleepTicks ms) → timerSleep ticks ms before waits = some k

/-- The ticks delivered when the ticks to wait for have come. -/
theorem delivered_le {n gap before : ℕ} {waits : List ℕ} (hbefore : before ≤ gap)
    (hwaits : ∀ w ∈ waits, w ≤ gap) {k : ℕ} (hk : k ≤ waits.length)
    (hfirst : ∀ j < k, delivered before waits j < n) : delivered before waits k ≤ n - 1 + gap := by
  cases k with
  | zero =>
    rw [delivered_zero]
    exact hbefore.trans (Nat.le_add_left _ _)
  | succ k =>
    have hlast := hfirst k (Nat.lt_succ_self k)
    have hwait := hwaits _ (List.getElem_mem hk)
    rw [delivered_succ hk]
    omega

/-- Without any overflow, the loop's condition is that the ticks have not come. -/
theorem asleep_iff {ticks ms : UInt32} {gap d : ℕ} (hms : ms.toNat * 100 < 2 ^ 32)
    (hroom : ticks.toNat + (sleepTicks ms - 1) + gap < 2 ^ 32) (hgap : 0 < gap)
    (hd : d ≤ sleepTicks ms - 1 + gap) : Asleep ticks ms d ↔ d < sleepTicks ms := by
  have hticks : ms.toNat * 100 % 2 ^ 32 / 1000 = sleepTicks ms := by
    rw [Nat.mod_eq_of_lt hms]
    rfl
  unfold Asleep
  rw [hticks, Nat.mod_eq_of_lt (by omega), Nat.mod_eq_of_lt (by omega), Nat.add_lt_add_iff_left]

/-- **Without any overflow** `timer_sleep` sleeps right. -/
theorem sleepsRight_of_room {ticks ms : UInt32} {gap before : ℕ} {waits : List ℕ}
    (hms : ms.toNat * 100 < 2 ^ 32) (hroom : ticks.toNat + (sleepTicks ms - 1) + gap < 2 ^ 32)
    (hgap : 0 < gap) (hbefore : before ≤ gap) (hwaits : ∀ w ∈ waits, w ≤ gap) :
    SleepsRight ticks ms before waits := by
  have hiff (k : ℕ) (hk : k ≤ waits.length)
      (hfirst : ∀ j < k, delivered before waits j < sleepTicks ms) :
      Asleep ticks ms (delivered before waits k) ↔ delivered before waits k < sleepTicks ms :=
    asleep_iff hms hroom hgap (delivered_le hbefore hwaits hk hfirst)
  refine ⟨fun k hk => ?_, fun k hk henough hfirst => ?_⟩
  · obtain ⟨hle, hnot, hall⟩ := timerSleep_eq_some_iff.1 hk
    have hfirst (j : ℕ) : j < k → delivered before waits j < sleepTicks ms := by
      induction j using Nat.strong_induction_on with
      | _ j ih =>
        intro hj
        exact (hiff j (hj.le.trans hle) fun i hi => ih i hi (hi.trans hj)).1 (hall j hj)
    exact not_lt.1 (mt (hiff k hle hfirst).2 hnot)
  · refine timerSleep_eq_some_iff.2 ⟨hk, mt (hiff k hk hfirst).1 (not_lt.2 henough), fun j hj => ?_⟩
    exact (hiff j (hj.le.trans hk) fun i hi => hfirst i (hi.trans hj)).2 (hfirst j hj)

/-- One tick during each `hlt`. -/
theorem delivered_ones {n k : ℕ} (hk : k ≤ n) (waits : List ℕ) :
    delivered 0 (List.replicate n 1 ++ waits) k = k := by
  rw [delivered, List.take_append_of_le_length (by rwa [List.length_replicate]),
    List.take_replicate, List.sum_replicate_nat, Nat.min_eq_left hk, Nat.mul_one, Nat.zero_add]

/-- A product that has wrapped is too small. -/
theorem wrapped_ticks_lt {p : ℕ} (hp : 2 ^ 32 ≤ p) : p % 2 ^ 32 / 1000 < p / 1000 := by
  have hmod : p % 2 ^ 32 + 2 ^ 32 ≤ p := by
    rw [Nat.mod_eq_sub_mod hp]
    omega
  generalize p % 2 ^ 32 = r at hmod
  omega

/-- **It returns too early** when the product wraps, or the tick to wait for. -/
theorem not_sleepsRight_of_wrap {ticks ms : UInt32} (hN : 0 < sleepTicks ms)
    (hwrap : 2 ^ 32 ≤ ms.toNat * 100 ∨ 2 ^ 32 ≤ ticks.toNat + sleepTicks ms) :
    ¬ SleepsRight ticks ms 0 (List.replicate (sleepTicks ms) 1) := by
  intro h
  have ht := ticks.toNat_lt
  obtain ⟨k, hk, hlast, hbefore⟩ : ∃ k < sleepTicks ms, ¬ Asleep ticks ms k ∧
      ∀ j < k, Asleep ticks ms j := by
    unfold Asleep
    by_cases hsum : ticks.toNat + ms.toNat * 100 % 2 ^ 32 / 1000 < 2 ^ 32
    · -- the product has wrapped: so many ticks are too few
      have hshort : ms.toNat * 100 % 2 ^ 32 / 1000 < sleepTicks ms := by
        rcases hwrap with hwrap | hwrap
        · exact wrapped_ticks_lt hwrap
        · by_contra hge
          have hle : ms.toNat * 100 % 2 ^ 32 / 1000 < sleepTicks ms + 1 :=
            Nat.lt_succ_of_le (Nat.div_le_div_right (Nat.mod_le _ _))
          omega
      generalize ms.toNat * 100 % 2 ^ 32 / 1000 = n at hsum hshort ⊢
      exact ⟨n, hshort, by omega, fun j hj => by omega⟩
    · -- the tick to wait for has passed already
      have hlt : ms.toNat * 100 % 2 ^ 32 / 1000 < 2 ^ 32 := by omega
      generalize ms.toNat * 100 % 2 ^ 32 / 1000 = n at hsum hlt ⊢
      exact ⟨0, hN, by omega, fun j hj => absurd hj (Nat.not_lt_zero j)⟩
  have hdelivered (j : ℕ) (hj : j ≤ sleepTicks ms) :
      delivered 0 (List.replicate (sleepTicks ms) 1) j = j := by
    simpa using delivered_ones hj []
  have hreturns : timerSleep ticks ms 0 (List.replicate (sleepTicks ms) 1) = some k := by
    rw [timerSleep_eq_some_iff, List.length_replicate, hdelivered k hk.le]
    refine ⟨hk.le, hlast, fun j hj => ?_⟩
    rw [hdelivered j (hj.trans hk).le]
    exact hbefore j hj
  have henough := h.enough k hreturns
  rw [hdelivered k hk.le] at henough
  exact absurd hk (not_lt.2 henough)

/-- **It goes on sleeping** when the counter wraps to 0 before the check that would end the
sleep. -/
theorem not_sleepsRight_of_counter {ticks ms : UInt32} {before k : ℕ} {waits : List ℕ}
    (hms : ms.toNat * 100 < 2 ^ 32) (hpos : 0 < ticks.toNat + sleepTicks ms)
    (hlt : ticks.toNat + sleepTicks ms < 2 ^ 32) (hk : k ≤ waits.length)
    (hat : ticks.toNat + delivered before waits k = 2 ^ 32)
    (hfirst : ∀ j < k, delivered before waits j < sleepTicks ms) :
    ¬ SleepsRight ticks ms before waits := by
  intro h
  have hreturns := h.prompt k hk (by omega) hfirst
  apply (timerSleep_eq_some_iff.1 hreturns).2.1
  have hticks : ms.toNat * 100 % 2 ^ 32 / 1000 = sleepTicks ms := by
    rw [Nat.mod_eq_of_lt hms]
    rfl
  rwa [Asleep, hat, hticks, Nat.mod_self, Nat.mod_eq_of_lt hlt]

/-- A sleep of no ticks, when the counter is at 0. -/
theorem sleepsRight_zero {ms : UInt32} (hms : ms.toNat < 10) (before : ℕ) (waits : List ℕ) :
    SleepsRight 0 ms before waits := by
  have hN : sleepTicks ms = 0 := by
    unfold sleepTicks
    simp only [timerHz, show (100 : UInt32).toNat = 100 from rfl]
    omega
  have hawake (d : ℕ) : ¬ Asleep 0 ms d := by
    rw [Asleep, Nat.mod_eq_of_lt (show ms.toNat * 100 < 2 ^ 32 by omega),
      Nat.div_eq_of_lt (show ms.toNat * 100 < 1000 by omega)]
    exact Nat.not_lt_zero _
  refine ⟨fun k _ => hN ▸ Nat.zero_le _, fun k hk _ hfirst => ?_⟩
  rw [timerSleep_eq_some_iff]
  refine ⟨hk, hawake _, fun j hj => ?_⟩
  exact absurd (hN ▸ hfirst j hj) (Nat.not_lt_zero _)

/-- **`timer_sleep` sleeps right** exactly when neither the product `ms * TIMER_HZ` nor the counter
can wrap before the check that ends the sleep. `gap` is the largest number of ticks that come
between two checks of the counter. -/
theorem sleeps_right_iff (ticks ms : UInt32) (gap : ℕ) (hgap : 0 < gap) :
    (∀ before waits, before ≤ gap → (∀ w ∈ waits, w ≤ gap) → SleepsRight ticks ms before waits) ↔
      (ms.toNat * 100 < 2 ^ 32 ∧ ticks.toNat + (sleepTicks ms - 1) + gap < 2 ^ 32) ∨
        (ticks = 0 ∧ ms.toNat < 10) := by
  constructor
  · intro hall
    by_contra hnot
    rw [not_or] at hnot
    have ht := ticks.toNat_lt
    have hones : ∀ w ∈ List.replicate (sleepTicks ms) 1, w ≤ gap := by
      intro w hw
      rw [List.eq_of_mem_replicate hw]
      exact hgap
    have hshort : sleepTicks ms = 0 ↔ ms.toNat < 10 := by
      unfold sleepTicks
      simp only [timerHz, show (100 : UInt32).toNat = 100 from rfl]
      omega
    rcases Nat.eq_zero_or_pos (sleepTicks ms) with hN | hN
    · -- nothing to wait for: a sleeper that is late for its first check
      have hms : ms.toNat < 10 := hshort.1 hN
      have hne : ticks.toNat ≠ 0 := fun h0 => hnot.2 ⟨UInt32.toNat_inj.1 h0, hms⟩
      have hgap' : 2 ^ 32 - ticks.toNat ≤ gap := by omega
      refine not_sleepsRight_of_counter (k := 0) (by omega) (by omega) (by omega) le_rfl ?_
        (fun j hj => absurd hj (Nat.not_lt_zero j)) (hall (2 ^ 32 - ticks.toNat) [] hgap' (by simp))
      rw [delivered_zero]
      omega
    · by_cases hwrap : 2 ^ 32 ≤ ms.toNat * 100 ∨ 2 ^ 32 ≤ ticks.toNat + sleepTicks ms
      · exact not_sleepsRight_of_wrap hN hwrap (hall 0 _ (Nat.zero_le _) hones)
      · -- the last wait takes the counter to 0
        rw [not_or, not_le, not_le] at hwrap
        have hlast : 2 ^ 32 - ticks.toNat - (sleepTicks ms - 1) ≤ gap := by omega
        generalize hd : 2 ^ 32 - ticks.toNat - (sleepTicks ms - 1) = d at hlast
        have hlen : (List.replicate (sleepTicks ms - 1) 1 ++ [d]).length = sleepTicks ms := by
          rw [List.length_append, List.length_replicate, List.length_singleton]
          omega
        have hwaits : ∀ w ∈ List.replicate (sleepTicks ms - 1) 1 ++ [d], w ≤ gap := by
          intro w hw
          rcases List.mem_append.1 hw with hw | hw
          · rw [List.eq_of_mem_replicate hw]
            exact hgap
          · rwa [List.mem_singleton.1 hw]
        refine not_sleepsRight_of_counter (k := sleepTicks ms) hwrap.1 (by omega) hwrap.2 hlen.ge ?_
          (fun j hj => ?_) (hall 0 _ (Nat.zero_le _) hwaits)
        · rw [delivered, List.take_of_length_le hlen.le, List.sum_append, List.sum_replicate_nat,
            List.sum_singleton, Nat.mul_one]
          omega
        · rwa [delivered_ones (by omega)]
  · rintro (⟨hms, hroom⟩ | ⟨rfl, hms⟩) before waits hbefore hwaits
    · exact sleepsRight_of_room hms hroom hgap hbefore hwaits
    · exact sleepsRight_zero hms before waits

theorem sleeps_right_500 :
    (∀ before waits, before ≤ 1 → (∀ w ∈ waits, w ≤ 1) → SleepsRight 7 500 before waits) ↔
      ((500 : UInt32).toNat * 100 < 2 ^ 32 ∧
        (7 : UInt32).toNat + (sleepTicks 500 - 1) + 1 < 2 ^ 32) ∨
        ((7 : UInt32) = 0 ∧ (500 : UInt32).toNat < 10) :=
  sleeps_right_iff 7 500 1 Nat.one_pos

/-- `sleep 42949673` returns at once: the product wraps to 4. -/
theorem sleeps_too_short : cmdSleepMs (literal "42949673") = some 42949673 ∧
    sleepTicks 42949673 = 4294967 ∧ timerSleep 0 42949673 0 [] = some 0 ∧
    ¬ SleepsRight 0 42949673 0 [] := by
  have hreturns : timerSleep 0 42949673 0 [] = some 0 := by decide
  refine ⟨by decide, by decide, hreturns, fun h => ?_⟩
  exact absurd (h.enough 0 hreturns) (by decide)

end JarvisOS
