import JarvisOS.Console.Agent
import Mathlib.Algebra.Order.BigOperators.Group.List
import Mathlib.Algebra.Order.Field.Rat
import Mathlib.Tactic.Linarith

/-!
# A session of the agent

`_read_until_prompt` reads from the socket until the line has been quiet for half a second. It never
waits for the prompt: by the time it looks for one, it gives up anyway (`readLoop_prompt`). So a
reply that arrives without a pause is returned whole, in whatever chunks it arrives, and a reply
with a pause is cut there. In a session of commands whose replies arrive without a pause, every
answer of `JarvisConsole.run` is what its command has printed (`session_answers`).
-/

namespace JarvisOS

open Foundations

/-! ## `_read_until_prompt` -/

/-- What a call of `recv` comes to, and the seconds that it took. -/
inductive Recv
  | chunk (bytes : List UInt8) (took : ℚ)
  | closed (took : ℚ)
  | timeout (took : ℚ)

/-- A chunk is not empty, and a timeout takes half a second. -/
def Recv.Possible : Recv → Prop
  | chunk bytes took => bytes ≠ [] ∧ 0 ≤ took
  | closed took => 0 ≤ took
  | timeout took => 1 / 2 ≤ took

/-- The variables of `_read_until_prompt`, and the time. -/
structure Reading where
  out : List UInt8
  quietUntil : ℚ
  now : ℚ

/-- The loop: what it returns, and what is left in the socket; `none` if nothing more happens
there. -/
def readLoop (prompt : List UInt8) (deadline : ℚ) :
    List Recv → Reading → Option (List UInt8 × List Recv)
  | [], s => if s.now < deadline then none else some (s.out, [])
  | r :: rs, s =>
    if s.now < deadline then
      match r with
      | .chunk bytes took =>
        readLoop prompt deadline rs ⟨s.out ++ bytes, s.now + took + 2 / 5, s.now + took⟩
      | .closed _ => some (s.out, rs)
      | .timeout took =>
        if prompt <:+ s.out ∨ s.now + took > s.quietUntil then some (s.out, rs)
        else readLoop prompt deadline rs { s with now := s.now + took }
    else some (s.out, r :: rs)

/-- `_read_until_prompt`, begun at the time `start`. -/
def readUntilPrompt (first : Bool) (start : ℚ) (rs : List Recv) : Option (List UInt8 × List Recv) :=
  readLoop prompt (start + 20) rs ⟨[], start + if first then 3 else 3 / 2, start⟩

section Loop

variable {prompt : List UInt8} {deadline : ℚ} {s : Reading}

/-- Nothing is read yet, or the last chunk is not older than the quiet time. -/
def Reading.Fresh (s : Reading) : Prop := s.out = [] ∨ s.quietUntil ≤ s.now + 2 / 5

/-- **The prompt makes no difference.** -/
theorem readLoop_prompt {prompt' : List UInt8} (hp : prompt ≠ []) (hp' : prompt' ≠ [])
    {rs : List Recv}
    (hrs : ∀ r ∈ rs, r.Possible) (hs : s.Fresh) : readLoop prompt deadline rs s =
      readLoop prompt' deadline rs s := by
  induction rs generalizing s with
  | nil => rfl
  | cons r rs ih =>
    obtain ⟨hr, hrest⟩ := List.forall_mem_cons.1 hrs
    unfold readLoop
    split_ifs with hnow
    · cases r with
      | chunk bytes took => exact ih hrest (Or.inr le_rfl)
      | closed took => rfl
      | timeout took =>
        have htook : 1 / 2 ≤ took := hr
        rcases hs with hout | hquiet
        · have hno : ∀ p : List UInt8, p ≠ [] → ¬ p <:+ s.out := fun p hp hsuf =>
            hp (List.suffix_nil.1 (hout ▸ hsuf))
          simp only [hno _ hp, hno _ hp', false_or]
          split_ifs
          · rfl
          · exact ih hrest (Or.inl hout)
        · have hover : s.now + took > s.quietUntil := by linarith
          simp only [hover, or_true, if_true]
    · rfl

/-- After the deadline nothing is read. -/
theorem readLoop_of_late (h : ¬ s.now < deadline) (rs : List Recv) :
    readLoop prompt deadline rs s = some (s.out, rs) := by
  unfold readLoop
  cases rs with
  | nil => exact if_neg h
  | cons r rs => exact if_neg h

/-- Reading chunks, the last of which is called for before the deadline. -/
theorem readLoop_chunks {cs : List (List UInt8 × ℚ)} (hcs : cs ≠ []) (hpos : ∀ c ∈ cs, 0 ≤ c.2)
    (hend : s.now + (cs.map Prod.snd).dropLast.sum < deadline) (rs : List Recv) :
    readLoop prompt deadline (cs.map (fun c => .chunk c.1 c.2) ++ rs) s =
      readLoop prompt deadline rs ⟨s.out ++ (cs.map Prod.fst).flatten,
        s.now + (cs.map Prod.snd).sum + 2 / 5, s.now + (cs.map Prod.snd).sum⟩ := by
  induction cs generalizing s with
  | nil => exact absurd rfl hcs
  | cons c cs ih =>
    obtain ⟨hc, hpos⟩ := List.forall_mem_cons.1 hpos
    have hnow : s.now < deadline := by
      have hsum : 0 ≤ ((c :: cs).map Prod.snd).dropLast.sum := List.sum_nonneg fun x hx => by
        obtain ⟨d, hd, rfl⟩ := List.mem_map.1 (List.dropLast_subset _ hx)
        rcases List.mem_cons.1 hd with rfl | hd
        · exact hc
        · exact hpos d hd
      linarith
    have hstep : readLoop prompt deadline ((c :: cs).map (fun c => .chunk c.1 c.2) ++ rs) s =
        readLoop prompt deadline (cs.map (fun c => .chunk c.1 c.2) ++ rs)
          ⟨s.out ++ c.1, s.now + c.2 + 2 / 5, s.now + c.2⟩ := by
      rw [List.map_cons, List.cons_append, readLoop, if_pos hnow]
    rw [hstep]
    by_cases hnil : cs = []
    · subst hnil
      simp
    · rw [List.map_cons, List.dropLast_cons_of_ne_nil (by simpa using hnil), List.sum_cons] at hend
      rw [ih hnil hpos (by simp only; linarith)]
      simp only [List.map_cons, List.flatten_cons, List.sum_cons, List.append_assoc, add_assoc]

/-- Waiting for the first chunk. -/
theorem readLoop_silence (hp : prompt ≠ []) (hout : s.out = []) {ts : List ℚ}
    (hpos : ∀ t ∈ ts, 0 ≤ t)
    (hquiet : s.now + ts.sum ≤ s.quietUntil) (hend : s.now + ts.sum < deadline) (rs : List Recv) :
    readLoop prompt deadline (ts.map .timeout ++ rs) s =
      readLoop prompt deadline rs { s with now := s.now + ts.sum } := by
  induction ts generalizing s with
  | nil => simp
  | cons t ts ih =>
    obtain ⟨ht, hpos⟩ := List.forall_mem_cons.1 hpos
    have hsum : 0 ≤ ts.sum := List.sum_nonneg hpos
    rw [List.sum_cons] at hquiet hend
    have hno : ¬ (prompt <:+ s.out ∨ s.now + t > s.quietUntil) := by
      rintro (hsuf | hover)
      · exact hp (List.suffix_nil.1 (hout ▸ hsuf))
      · linarith
    have hstep : readLoop prompt deadline ((t :: ts).map .timeout ++ rs) s =
        readLoop prompt deadline (ts.map .timeout ++ rs) { s with now := s.now + t } := by
      rw [List.map_cons, List.cons_append, readLoop, if_pos (by linarith)]
      exact if_neg hno
    have hrest := @ih { s with now := s.now + t } hout hpos (by dsimp only; linarith)
      (by dsimp only; linarith)
    rw [hstep, hrest, List.sum_cons]
    simp only [add_assoc]

end Loop

/-! ### What a reading takes -/

/-- What ends a reading after `elapsed` seconds, in which something has come or nothing, where a
reading waits `wait` seconds for the first chunk: its 20 seconds are over, the socket is closed, or
the line is quiet. -/
inductive Stops (wait elapsed : ℚ) (nothing : Prop) : List Recv → Prop
  | deadline (h : 20 ≤ elapsed) : Stops wait elapsed nothing []
  | closed (took : ℚ) (h : elapsed < 20) : Stops wait elapsed nothing [.closed took]
  | timeout (took : ℚ) (h : elapsed < 20) (hwait : nothing → wait < elapsed + took) :
      Stops wait elapsed nothing [.timeout took]

/-- **A reading** of `out` from `rs`, which leaves `rest` in the socket: some silence, no longer
than the reading waits; chunks, the last of which it calls for in time; and what ends it. -/
structure Reads (wait : ℚ) (rs : List Recv) (out : List UInt8) (rest : List Recv) (ts : List ℚ)
    (cs : List (List UInt8 × ℚ)) (stop : List Recv) : Prop where
  events : rs = ts.map .timeout ++ (cs.map (fun c => .chunk c.1 c.2) ++ (stop ++ rest))
  out_eq : out = (cs.map Prod.fst).flatten
  waits : ts.sum ≤ wait
  inTime : cs ≠ [] → ts.sum + (cs.map Prod.snd).dropLast.sum < 20
  stops : Stops wait (ts.sum + (cs.map Prod.snd).sum) (cs = []) stop

section Loop

variable {start : ℚ} {s : Reading} {rs rest : List Recv} {out : List UInt8}

/-- The last chunk is called for in time if the one before it is. -/
theorem dropLast_sum_lt {elapsed : ℚ} {c : List UInt8 × ℚ} {cs : List (List UInt8 × ℚ)}
    (h : elapsed < 20) (hcs : cs ≠ [] → elapsed + c.2 + (cs.map Prod.snd).dropLast.sum < 20) :
    elapsed + ((c :: cs).map Prod.snd).dropLast.sum < 20 := by
  by_cases hnil : cs = []
  · subst hnil
    simpa using h
  · rw [List.map_cons, List.dropLast_cons_of_ne_nil (by simpa using hnil), List.sum_cons,
      ← add_assoc]
    exact hcs hnil

/-- The loop after a chunk, `elapsed` seconds after the start: it takes the chunks that follow, and
no silence. -/
theorem readLoop_after_chunk (hrs : ∀ r ∈ rs, r.Possible) {w elapsed : ℚ}
    (hnow : s.now = start + elapsed) (hs : s.quietUntil ≤ s.now + 2 / 5)
    (h : readLoop prompt (start + 20) rs s = some (out, rest)) :
    ∃ (cs : List (List UInt8 × ℚ)) (stop : List Recv),
      rs = cs.map (fun c => .chunk c.1 c.2) ++ (stop ++ rest) ∧
      out = s.out ++ (cs.map Prod.fst).flatten ∧
      (cs ≠ [] → elapsed + (cs.map Prod.snd).dropLast.sum < 20) ∧
      Stops w (elapsed + (cs.map Prod.snd).sum) False stop := by
  induction rs generalizing s elapsed with
  | nil =>
    unfold readLoop at h
    split_ifs at h with hlate
    obtain ⟨rfl, rfl⟩ := Prod.mk.inj (Option.some.inj h)
    refine ⟨[], [], rfl, (List.append_nil _).symm, by simp, .deadline ?_⟩
    simp only [List.map_nil, List.sum_nil]
    linarith
  | cons r rs ih =>
    obtain ⟨hr, hrest⟩ := List.forall_mem_cons.1 hrs
    unfold readLoop at h
    split_ifs at h with hsoon
    · have helapsed : elapsed < 20 := by linarith
      cases r with
      | chunk bytes took =>
        obtain ⟨cs, stop, e, eout, hin, hstop⟩ := ih hrest
          (show s.now + took = start + (elapsed + took) by linarith) le_rfl h
        refine ⟨(bytes, took) :: cs, stop, congrArg _ e, ?_, fun _ => ?_, ?_⟩
        · rw [eout, List.append_assoc]
          rfl
        · exact dropLast_sum_lt helapsed hin
        · rwa [List.map_cons, List.sum_cons, ← add_assoc]
      | closed took =>
        obtain ⟨rfl, rfl⟩ := Prod.mk.inj (Option.some.inj h)
        exact ⟨[], _, rfl,
          (List.append_nil _).symm, by simp, .closed took (by simpa using helapsed)⟩
      | timeout took =>
        have htook : 1 / 2 ≤ took := hr
        have hover : s.now + took > s.quietUntil := by linarith
        simp only [hover, or_true, if_true] at h
        obtain ⟨rfl, rfl⟩ := Prod.mk.inj (Option.some.inj h)
        exact ⟨[], _, rfl, (List.append_nil _).symm, by simp,
          .timeout took (by simpa using helapsed) False.elim⟩
    · obtain ⟨rfl, rfl⟩ := Prod.mk.inj (Option.some.inj h)
      refine ⟨[], [], rfl, (List.append_nil _).symm, by simp, .deadline ?_⟩
      simp only [List.map_nil, List.sum_nil]
      linarith

theorem Stops.mono {wait elapsed : ℚ} {p q : Prop} {stop : List Recv}
    (h : Stops wait elapsed p stop)
    (hpq : q → p) : Stops wait elapsed q stop := by
  cases h with
  | deadline h => exact .deadline h
  | closed took h => exact .closed took h
  | timeout took h hwait => exact .timeout took h fun hq => hwait (hpq hq)

/-- The loop before the first chunk, `elapsed` seconds after the start: it waits. -/
theorem readLoop_before_chunk (hrs : ∀ r ∈ rs, r.Possible) {wait elapsed : ℚ} (hout : s.out = [])
    (hnow : s.now = start + elapsed) (hquiet : s.quietUntil = start + wait) (hwait : elapsed ≤ wait)
    (hlimit : wait < 20) (h : readLoop prompt (start + 20) rs s = some (out, rest)) :
    ∃ (ts : List ℚ) (cs : List (List UInt8 × ℚ)) (stop : List Recv),
      rs = ts.map .timeout ++ (cs.map (fun c => .chunk c.1 c.2) ++ (stop ++ rest)) ∧
      out = (cs.map Prod.fst).flatten ∧ elapsed + ts.sum ≤ wait ∧
      (cs ≠ [] → elapsed + ts.sum + (cs.map Prod.snd).dropLast.sum < 20) ∧
      Stops wait (elapsed + ts.sum + (cs.map Prod.snd).sum) (cs = []) stop := by
  have hprompt : ¬ prompt <:+ s.out := fun hsuf =>
    (by decide : prompt ≠ []) (List.suffix_nil.1 (hout ▸ hsuf))
  have helapsed : elapsed < 20 := by linarith
  have hsoon : s.now < start + 20 := by linarith
  induction rs generalizing s elapsed with
  | nil =>
    rw [readLoop, if_pos hsoon] at h
    cases h
  | cons r rs ih =>
    obtain ⟨hr, hrest⟩ := List.forall_mem_cons.1 hrs
    unfold readLoop at h
    rw [if_pos hsoon] at h
    cases r with
    | chunk bytes took =>
      obtain ⟨cs, stop, e, eout, hin, hstop⟩ := readLoop_after_chunk (w := wait) hrest
        (show s.now + took = start + (elapsed + took) by linarith) le_rfl h
      refine ⟨[], (bytes, took) :: cs, stop,
        congrArg _ e, ?_, by simpa using hwait, fun _ => ?_, ?_⟩
      · rw [eout, hout]
        rfl
      · rw [List.sum_nil, add_zero]
        exact dropLast_sum_lt helapsed hin
      · rw [List.map_cons, List.sum_cons, List.sum_nil, add_zero, ← add_assoc]
        exact hstop.mono fun hnil => List.cons_ne_nil _ _ hnil
    | closed took =>
      obtain ⟨rfl, rfl⟩ := Prod.mk.inj (Option.some.inj h)
      exact ⟨[], [], _, rfl, hout, by simpa using hwait, by simp,
        .closed took (by simpa using helapsed)⟩
    | timeout took =>
      dsimp only at h
      simp only [hprompt, false_or] at h
      split_ifs at h with hover
      · obtain ⟨rfl, rfl⟩ := Prod.mk.inj (Option.some.inj h)
        refine ⟨[], [], _, rfl, hout, by simpa using hwait, by simp,
          .timeout took (by simpa using helapsed) fun _ => ?_⟩
        simp only [List.sum_nil, List.map_nil, add_zero]
        linarith
      · have hmore : elapsed + took ≤ wait := by linarith
        obtain ⟨ts, cs, stop, e, eout, hts, hin, hstop⟩ := ih
          (s := { s with now := s.now + took }) hrest hout
          (show s.now + took = start + (elapsed + took) by linarith) hquiet hmore h hprompt
          (by linarith) (show s.now + took < start + 20 by linarith)
        refine ⟨took :: ts, cs, stop, congrArg _ e, eout, ?_, ?_, ?_⟩
        · rw [List.sum_cons, ← add_assoc]
          exact hts
        · rw [List.sum_cons, ← add_assoc]
          exact hin
        · rw [List.sum_cons, ← add_assoc]
          exact hstop

end Loop

/-- **What a reading returns** is what it takes. -/
theorem Reads.read {first : Bool} {start : ℚ} {rs rest stop : List Recv} {out : List UInt8}
    {ts : List ℚ}
    {cs : List (List UInt8 × ℚ)} (h : Reads (if first then 3 else 3 / 2) rs out rest ts cs stop)
    (hrs : ∀ r ∈ ts.map .timeout ++ (cs.map (fun c => .chunk c.1 c.2) ++ stop), r.Possible) :
    readUntilPrompt first start rs = some (out, rest) := by
  have hwait : (if first then 3 else 3 / 2 : ℚ) < 20 := by
    split_ifs <;> norm_num
  unfold readUntilPrompt
  generalize (if first then 3 else 3 / 2 : ℚ) = wait at h hwait ⊢
  obtain ⟨rfl, rfl, hwaits, hin, hstop⟩ := h
  rw [List.forall_mem_append, List.forall_mem_append] at hrs
  obtain ⟨hts, hcs, hend⟩ := hrs
  have hsilence : ∀ t ∈ ts, 0 ≤ t := fun t ht => by
    have htook : 1 / 2 ≤ t := hts (.timeout t) (List.mem_map_of_mem ht)
    linarith
  have hchunks : ∀ c ∈ cs, 0 ≤ c.2 := fun c hc =>
    (hcs (.chunk c.1 c.2)
      (List.mem_map_of_mem (f := fun c : List UInt8 × ℚ => Recv.chunk c.1 c.2) hc)).2
  rw [readLoop_silence (by decide) rfl hsilence (by dsimp only; linarith) (by dsimp only; linarith)]
  by_cases hnil : cs = []
  · -- nothing comes before the end
    subst hnil
    rw [List.map_nil, List.sum_nil, add_zero] at hstop
    cases hstop with
    | deadline hlate => linarith
    | closed took hsoon =>
      rw [List.map_nil, List.nil_append, List.singleton_append, readLoop,
        if_pos (by dsimp only; linarith)]
      rfl
    | timeout took hsoon hover =>
      have hover := hover rfl
      rw [List.map_nil, List.nil_append, List.singleton_append, readLoop,
        if_pos (by dsimp only; linarith)]
      dsimp only
      rw [if_pos (Or.inr (by linarith))]
      rfl
  · have hin := hin hnil
    rw [readLoop_chunks hnil hchunks (by dsimp only; linarith)]
    cases hstop with
    | deadline hlate =>
      have hover : ¬ start + ts.sum + (cs.map Prod.snd).sum < start + 20 := by linarith
      rw [List.nil_append, readLoop_of_late hover, List.nil_append]
    | closed took hsoon =>
      rw [List.singleton_append, readLoop, if_pos (by dsimp only; linarith), List.nil_append]
    | timeout took hsoon _ =>
      have htook : 1 / 2 ≤ took := hend (.timeout took) List.mem_cons_self
      rw [List.singleton_append, readLoop, if_pos (by dsimp only; linarith)]
      dsimp only
      rw [if_pos (Or.inr (by linarith)), List.nil_append]

/-- **What a reading takes** is what it returns. -/
theorem exists_reads {first : Bool} {start : ℚ} {rs rest : List Recv} {out : List UInt8}
    (hrs : ∀ r ∈ rs, r.Possible) (h : readUntilPrompt first start rs = some (out, rest)) :
    ∃ ts cs stop, Reads (if first then 3 else 3 / 2) rs out rest ts cs stop := by
  have hwait : 0 ≤ (if first then 3 else 3 / 2 : ℚ) ∧ (if first then 3 else 3 / 2 : ℚ) < 20 := by
    split_ifs <;> norm_num
  unfold readUntilPrompt at h
  generalize (if first then 3 else 3 / 2 : ℚ) = wait at h hwait ⊢
  obtain ⟨ts, cs, stop, e, eout, hts, hin, hstop⟩ := readLoop_before_chunk hrs rfl
    (add_zero start).symm rfl hwait.1 hwait.2 h
  simp only [zero_add] at hts hin hstop
  exact ⟨ts, cs, stop, e, eout, hts, hin, hstop⟩

/-! ## Replies -/

/-- How bytes arrive: some silence, chunks, and a silence again. -/
structure Delivery where
  silence : List ℚ
  chunks : List (List UInt8 × ℚ)
  last : ℚ

namespace Delivery

def events (d : Delivery) : List Recv :=
  d.silence.map .timeout ++ (d.chunks.map (fun c => .chunk c.1 c.2) ++ [.timeout d.last])

/-- The text arrives without a pause, and in time. -/
structure Unbroken (d : Delivery) (text : List UInt8) : Prop where
  text_eq : (d.chunks.map Prod.fst).flatten = text
  possible : ∀ r ∈ d.events, r.Possible
  chunks_ne : d.chunks ≠ []
  soon : d.silence.sum ≤ 3 / 2
  inTime : d.silence.sum + (d.chunks.map Prod.snd).sum < 20

variable {d : Delivery} {text : List UInt8}

/-- **A text that arrives without a pause is read**, and no more. -/
theorem Unbroken.read (h : d.Unbroken text) (first : Bool) (start : ℚ) (rest : List Recv) :
    readUntilPrompt first start (d.events ++ rest) = some (text, rest) := by
  have hwait : 3 / 2 ≤ (if first then 3 else 3 / 2 : ℚ) := by
    split_ifs <;> norm_num
  have hchunks : ∀ x ∈ d.chunks.map Prod.snd, 0 ≤ x := fun x hx => by
    obtain ⟨c, hc, rfl⟩ := List.mem_map.1 hx
    exact (h.possible (.chunk c.1 c.2) (List.mem_append_right _ (List.mem_append_left _
      (List.mem_map_of_mem (f := fun c : List UInt8 × ℚ => Recv.chunk c.1 c.2) hc)))).2
  have hlast : (d.chunks.map Prod.snd).dropLast.sum ≤ (d.chunks.map Prod.snd).sum :=
    (List.dropLast_sublist _).sum_le_sum hchunks
  have hintime := h.inTime
  have hreads : Reads (if first then 3 else 3 / 2) (d.events ++ rest) text rest d.silence d.chunks
      [.timeout d.last] :=
    ⟨by simp only [events, List.append_assoc], h.text_eq.symm, h.soon.trans hwait,
      fun _ => by linarith, .timeout d.last h.inTime fun hnil => absurd hnil h.chunks_ne⟩
  exact hreads.read h.possible

end Delivery

/-- **A reading ends at the first silence.** Whatever happens on the socket, with timeouts of half a
second: the reading is the same for every prompt. It returns exactly the bytes of the chunks that
come without a silence in between, after the silence at the beginning and up to the first timeout,
the closing of the socket or the end of its 20 seconds, and leaves the rest in the socket. A text
that comes without a pause within the first seconds is returned, in whatever chunks it comes. -/
theorem read_until_silence (first : Bool) (start : ℚ) {rs : List Recv}
    (hrs : ∀ r ∈ rs, r.Possible) :
    (∀ prompt' ≠ [], readUntilPrompt first start rs =
      readLoop prompt' (start + 20) rs ⟨[], start + if first then 3 else 3 / 2, start⟩) ∧
    (∀ out rest, readUntilPrompt first start rs = some (out, rest) ↔
      ∃ ts cs stop, Reads (if first then 3 else 3 / 2) rs out rest ts cs stop) ∧
    ∀ (d : Delivery) (text : List UInt8), d.Unbroken text →
      readUntilPrompt first start (d.events ++ rs) = some (text, rs) := by
  have hp : prompt ≠ [] := by decide
  refine ⟨fun prompt' hp' => readLoop_prompt hp hp' hrs (Or.inl rfl),
    fun out rest => ⟨exists_reads hrs, fun ⟨_, _, _, h⟩ => h.read fun r hr => hrs r ?_⟩,
    fun d text hd => hd.read first start rs⟩
  rw [h.events]
  simpa only [List.append_assoc] using List.mem_append_left rest hr

/-- What comes after a pause stays in the socket. -/
theorem read_until_silence_pause :
    readUntilPrompt false 0 [.timeout (1 / 2), .chunk [97] 0, .chunk [98] 0, .timeout (1 / 2),
      .chunk [99] 0] =
      some ([97, 98], [.chunk [99] 0]) := by
  have hrs : ∀ r ∈ [Recv.chunk [99] 0], r.Possible := by
    simp [Recv.Possible]
  refine (read_until_silence false 0 hrs).2.2 ⟨[1 / 2], [([97], 0), ([98], 0)], 1 / 2⟩ [97, 98]
    ⟨rfl, ?_, by simp, ?_, ?_⟩
  · simp [Delivery.events, Recv.Possible]
  · norm_num
  · norm_num

/-! ## Sessions -/

/-- One command of a session: what is sent and when, how the reply arrives, and what the command
prints. -/
structure Exchange where
  command : List UInt8
  start : ℚ
  delivery : Delivery
  text : List UInt8

/-- The answers of `JarvisConsole.run` to commands sent one after the other, over one socket. -/
def session : List (List UInt8 × ℚ) → List Recv → Option (List (List UInt8))
  | [], _ => some []
  | (command, start) :: commands, rs =>
    (readUntilPrompt false start rs).bind fun (raw, rest) =>
      (session commands rest).map fun answers => JarvisConsole.run command raw :: answers

/-- The kernel's side of a session: it replies to each command in the state that the last one has
left, and each reply arrives without a pause. -/
inductive Conversation (commands : Commands) : Console × Vga → List Exchange → Prop
  | nil (p : Console × Vga) : Conversation commands p []
  | cons {p : Console × Vga} {x : Exchange} {xs : List Exchange} (printable : ∀ c ∈ x.command,
      Printable c)
      (short : x.command.length ≤ lineMax - 1) (prints : Prints commands p x.command x.text)
      (arrives : x.delivery.Unbroken (reply commands p x.command))
      (next : Conversation commands (receive commands p (x.command ++ [returnChar])) xs) :
      Conversation commands p (x :: xs)

/-- After a command line the editor is empty. -/
theorem lineLen_receive (commands : Commands) (p : Console × Vga) (command : List UInt8) :
    (receive commands p (command ++ [returnChar])).1.lineLen = 0 := by
  rw [receive, List.map_append, List.foldl_append]
  rfl

/-- **Every answer of a session is right**, whatever the commands of the shell are: it is what the
command has printed, without the newlines around it. -/
theorem session_answers {commands : Commands} {p : Console × Vga} {xs : List Exchange}
    (hidle : p.1.lineLen = 0)
    (h : Conversation commands p xs) :
    session (xs.map fun x => (x.command, x.start)) (xs.map fun x => x.delivery.events).flatten =
      some (xs.map fun x => stripped x.text) := by
  induction h with
  | nil p => rfl
  | @cons p x xs hprintable hshort hprints harrives _ ih =>
    have hrest := ih (lineLen_receive commands p x.command)
    have hanswer : JarvisConsole.run x.command (reply commands p x.command) = stripped x.text := by
      rw [reply_eq hidle hprintable hprints, List.take_of_length_le hshort]
      exact run_whole x.command x.text
    simp only [List.map_cons, List.flatten_cons, session]
    rw [harrives.read false x.start, Option.bind_some]
    dsimp only
    rw [hrest, Option.map_some, hanswer]

/-- `echo hi`, with the reply in two chunks. -/
def echoExchange : Exchange where
  command := literal "echo hi"
  start := 0
  delivery :=
    ⟨[1 / 2], [(literal "echo hi\r\nhi\r", 1 / 10), (literal "\njarvis> ", 1 / 10)], 1 / 2⟩
  text := literal "hi\n"

theorem session_answers_echo : session [(literal "echo hi", 0)] echoExchange.delivery.events =
    some [literal "hi"] := by
  have hprintable : ∀ c ∈ literal "echo hi", Printable c := by decide +kernel
  have hwords : shellWords (editLine (literal "echo hi")) =
    (literal "echo", literal "hi") := by decide +kernel
  have hline : editLine (literal "echo hi") ≠ [] := by decide +kernel
  have hsplit : literal "hi" ++ literal "\n" = literal "hi\n" := by decide
  have hprints : Prints echoOnly idleShell (literal "echo hi") (literal "hi\n") := by
    simp [Prints, shellExecute, hline, hwords, echoOnly, ← hsplit]
  have harrives : echoExchange.delivery.Unbroken
    (reply echoOnly idleShell (literal "echo hi")) := by
    refine ⟨?_, ?_, by simp [echoExchange], ?_, ?_⟩
    · rw [reply_eq rfl hprintable hprints]
      decide +kernel
    · simp only [echoExchange, Delivery.events, List.map_cons, List.map_nil, List.cons_append,
        List.nil_append, List.forall_mem_cons, Recv.Possible]
      refine ⟨le_rfl, ⟨by decide, by norm_num⟩, ⟨by decide, by norm_num⟩, le_rfl,
        fun _ h => absurd h List.not_mem_nil⟩
    · norm_num [echoExchange]
    · norm_num [echoExchange]
  have hanswers := @session_answers echoOnly idleShell [echoExchange] rfl
    (.cons hprintable (by decide) hprints harrives (.nil _))
  exact hanswers.trans (by decide +kernel)

end JarvisOS
