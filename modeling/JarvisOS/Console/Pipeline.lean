import JarvisOS.Console.LineEditor

/-!
# From the interrupts to the shell

`shell_poll` step by step, with `shell_push_char` let in between any two of its steps and while a
command runs. What the interrupts push is accepted as long as fewer than `RING_SIZE - 1` characters
are pending (`ConsoleRun.push`). In every run the characters given to `shell_input_char` are the
accepted ones in order, up to those still on their way (`PipelineInv`), and the lines executed are
the lines of that stream: `console_pipeline`.
-/

namespace JarvisOS

open Foundations

/-! ## Runs -/

/-- Where the kernel task is. -/
inductive PollPc
  /-- Outside `shell_poll`. -/
  | outside
  /-- Before the test `ring_tail != ring_head`. -/
  | test
  /-- Before `c = ring[ring_tail]`. -/
  | read
  /-- Before `ring_tail = (ring_tail + 1) % RING_SIZE`. -/
  | advance (c : UInt8)
  /-- Before the call of `shell_input_char(c)`. -/
  | input (c : UInt8)
  /-- In `shell_input_char`, its work on the line done: a command may be running. -/
  | inside

/-- A run so far: the console, the kernel task, the characters given to `shell_input_char` and the
buffers passed to `shell_execute`; for the specification, the characters accepted and how many of
them have left the ring. -/
structure ConsoleRun where
  console : Console
  pc : PollPc
  given : List UInt8
  executed : List (ℤ → UInt8)
  accepted : List UInt8
  taken : ℕ

namespace ConsoleRun

/-- The number of characters accepted that are still in the ring. -/
def pending (r : ConsoleRun) : ℕ := r.accepted.length - r.taken

/-- An interrupt handler calls `shell_push_char`. -/
def push (c : UInt8) (r : ConsoleRun) : ConsoleRun :=
  { r with
    console := shellPushChar c r.console
    accepted := if r.pending < ringSize - 1 then r.accepted ++ [c] else r.accepted }

/-- The kernel task takes a step. -/
def poll (r : ConsoleRun) : ConsoleRun :=
  match r.pc with
  | .outside => { r with pc := .test }
  | .test => { r with pc := if r.console.ringTail ≠ r.console.ringHead then .read else .outside }
  | .read => { r with pc := .advance (r.console.ring r.console.ringTail) }
  | .advance c => { r with
      pc := .input c
      console := { r.console with ringTail := u32 (r.console.ringTail + 1) % ringSize }
      taken := r.taken + 1 }
  | .input c => { r with
      pc := .inside
      console := (shellInputChar c r.console).2
      given := r.given ++ [c]
      executed := r.executed ++ (shellInputChar c r.console).1.toList }
  | .inside => { r with pc := .test }

/-- The character read but not yet given to `shell_input_char`. -/
def inFlight (r : ConsoleRun) : List UInt8 :=
  match r.pc with
  | .input c => [c]
  | _ => []

end ConsoleRun

/-- What can happen to the console. -/
inductive ConsoleEvent
  | push (c : UInt8)
  | poll

/-- One event. -/
def ConsoleEvent.apply (r : ConsoleRun) : ConsoleEvent → ConsoleRun
  | push c => r.push c
  | poll => r.poll

/-- The console at boot; memory may hold anything in the two buffers. -/
def consoleBoot (lineBuf : ℤ → UInt8) (ring : ℕ → UInt8) : ConsoleRun :=
  ⟨⟨lineBuf, 0, ring, 0, 0, []⟩, .outside, [], [], [], 0⟩

/-- The run over a sequence of events. -/
def consoleRun (lineBuf : ℤ → UInt8) (ring : ℕ → UInt8) (events : List ConsoleEvent) : ConsoleRun :=
  events.foldl ConsoleEvent.apply (consoleBoot lineBuf ring)

/-! ## The invariant -/

/-- What the kernel task knows about the queue, by where it is. -/
def PollPc.Knows (queue : List UInt8) : PollPc → Prop
  | read => queue ≠ []
  | advance c => queue.head? = some c
  | _ => True

/-- **The invariant**: the ring holds `queue`, and with what has been given and what is in flight it
makes up what was accepted. -/
structure PipelineInv (r : ConsoleRun) (queue : List UInt8) : Prop where
  ring : r.console.view.Represents ringSize queue
  stream : r.accepted = r.given ++ r.inFlight ++ queue
  taken : r.taken = (r.given ++ r.inFlight).length
  knows : r.pc.Knows queue
  edits : Edits r.given r.executed r.console

namespace PipelineInv

variable {r : ConsoleRun} {queue : List UInt8}

theorem boot (lineBuf : ℤ → UInt8) (ring : ℕ → UInt8) :
    PipelineInv (consoleBoot lineBuf ring) [] where
  ring := .empty (by decide) ring
  stream := rfl
  taken := rfl
  knows := trivial
  edits := .start rfl

/-- The characters pending are those in the ring. -/
theorem pending (h : PipelineInv r queue) : r.pending = queue.length := by
  rw [ConsoleRun.pending, h.stream, h.taken, List.length_append, Nat.add_sub_cancel_left]

/-- **A push** appends to the queue exactly when it is accepted. -/
theorem push (h : PipelineInv r queue) (c : UInt8) :
    PipelineInv (r.push c) (if queue.length < ringSize - 1 then queue ++ [c] else queue) := by
  obtain ⟨hbuf, hlen⟩ := Console.shellPushChar_line c r.console
  have hring := h.ring.push c
  have haccepted : (r.push c).accepted =
      if queue.length < ringSize - 1 then r.accepted ++ [c] else r.accepted := by
    rw [ConsoleRun.push, h.pending]
  rw [← Console.view_shellPushChar c h.ring.head_lt] at hring
  refine ⟨?_, ?_, h.taken, ?_, h.edits.congr hbuf hlen⟩
  · simp only [← Nat.lt_sub_iff_add_lt] at hring
    exact hring
  · rw [haccepted]
    split_ifs
    · rw [h.stream, List.append_assoc]
      rfl
    · exact h.stream
  · have hknows := h.knows
    show r.pc.Knows _
    cases hpc : r.pc <;> rw [hpc] at hknows <;> try trivial
    · split_ifs
      · exact List.append_ne_nil_of_right_ne_nil queue (List.cons_ne_nil c [])
      · exact hknows
    · split_ifs
      · obtain ⟨rest, rfl⟩ := List.head?_eq_some_iff.1 hknows
        rfl
      · exact hknows

/-! ## The steps of the kernel task -/

/-- A step that neither takes a character nor gives one. -/
theorem goOn (h : PipelineInv r queue) {pc : PollPc} (hnone : r.inFlight = [])
    (hnone' : { r with pc := pc }.inFlight = []) (hknows : pc.Knows queue) :
    PipelineInv { r with pc := pc } queue := by
  have hstream := h.stream
  have htaken := h.taken
  rw [hnone, ← hnone'] at hstream htaken
  exact ⟨h.ring, hstream, htaken, hknows, h.edits⟩

/-- `shell_poll` is called, or the editor's work is done. -/
theorem again (h : PipelineInv r queue) (hpc : r.pc = .outside ∨ r.pc = .inside) :
    PipelineInv r.poll queue ∧ r.poll.pc = .test := by
  have hpoll : r.poll = { r with pc := .test } := by
    rcases hpc with hpc | hpc <;> rw [ConsoleRun.poll, hpc]
  have hnone : r.inFlight = [] := by
    rcases hpc with hpc | hpc <;> rw [ConsoleRun.inFlight, hpc]
  rw [hpoll]
  exact ⟨h.goOn hnone rfl trivial, rfl⟩

/-- **The test** sends the kernel task on exactly when characters are pending. -/
theorem test (h : PipelineInv r queue) (hpc : r.pc = .test) :
    PipelineInv r.poll queue ∧ r.poll.pc = if queue = [] then .outside else .read := by
  have hpoll : r.poll = { r with pc := if queue = [] then .outside else .read } := by
    have hiff : r.console.ringTail = r.console.ringHead ↔ queue = [] := h.ring.tail_eq_head_iff
    rw [ConsoleRun.poll, hpc]
    by_cases hq : queue = []
    · simp only [hiff.2 hq, ne_eq, not_true_eq_false, if_false, hq, if_true]
    · simp only [ne_eq, mt hiff.1 hq, not_false_eq_true, if_true, hq, if_false]
  have hnone : r.inFlight = [] := by rw [ConsoleRun.inFlight, hpc]
  rw [hpoll]
  by_cases hq : queue = []
  · rw [if_pos hq]
    exact ⟨h.goOn hnone rfl trivial, rfl⟩
  · rw [if_neg hq]
    exact ⟨h.goOn hnone rfl hq, rfl⟩

theorem read (h : PipelineInv r queue) (hpc : r.pc = .read) :
    ∃ c, PipelineInv r.poll queue ∧ r.poll.pc = .advance c := by
  have hknows := h.knows
  rw [hpc] at hknows
  obtain ⟨c, rest, rfl⟩ := List.exists_cons_of_ne_nil hknows
  have hpeek : r.console.ring r.console.ringTail = c := h.ring.peek
  have hpoll : r.poll = { r with pc := .advance c } := by rw [ConsoleRun.poll, hpc, hpeek]
  have hnone : r.inFlight = [] := by rw [ConsoleRun.inFlight, hpc]
  rw [hpoll]
  exact ⟨c, h.goOn hnone rfl rfl, rfl⟩

/-- **Advancing** takes the character that was read off the queue. -/
theorem advance (h : PipelineInv r queue) {c : UInt8} (hpc : r.pc = .advance c) :
    ∃ rest, queue = c :: rest ∧ PipelineInv r.poll rest ∧ r.poll.pc = .input c := by
  have hknows := h.knows
  have hstream := h.stream
  have htaken := h.taken
  rw [hpc] at hknows
  rw [ConsoleRun.inFlight, hpc] at hstream htaken
  obtain ⟨rest, rfl⟩ := List.head?_eq_some_iff.1 hknows
  have htail : u32 (r.console.ringTail + 1) = r.console.ringTail + 1 :=
    u32_of_lt ((Nat.succ_le_of_lt h.ring.tail_lt).trans_lt (by decide))
  have hpoll : r.poll = { r with
      pc := .input c
      console := { r.console with ringTail := (r.console.ringTail + 1) % ringSize }
      taken := r.taken + 1 } := by rw [ConsoleRun.poll, hpc, htail]
  rw [hpoll]
  refine ⟨rest, rfl, ⟨h.ring.advance, ?_, ?_, trivial, h.edits.congr rfl rfl⟩, rfl⟩
  · simpa [ConsoleRun.inFlight] using hstream
  · simpa [ConsoleRun.inFlight] using htaken

/-- **The editor** is given the character in flight. -/
theorem input (h : PipelineInv r queue) {c : UInt8} (hpc : r.pc = .input c) :
    PipelineInv r.poll queue ∧ r.poll.pc = .inside := by
  have hpoll : r.poll = { r with
      pc := .inside
      console := (shellInputChar c r.console).2
      given := r.given ++ [c]
      executed := r.executed ++ (shellInputChar c r.console).1.toList } := by
    rw [ConsoleRun.poll, hpc]
  have hstream := h.stream
  have htaken := h.taken
  rw [ConsoleRun.inFlight, hpc] at hstream htaken
  rw [hpoll]
  refine ⟨⟨?_, ?_, ?_, trivial, h.edits.step c⟩, rfl⟩
  · rw [Console.view_shellInputChar]
    exact h.ring
  · simpa [ConsoleRun.inFlight] using hstream
  · simpa [ConsoleRun.inFlight] using htaken

end PipelineInv

/-- The steps until the kernel task is back at the test, in the order in which they are taken. -/
def PollPc.rank : PollPc → ℕ
  | input _ => 4
  | inside => 3
  | outside => 3
  | test => 2
  | read => 1
  | advance _ => 0

namespace PipelineInv

variable {r : ConsoleRun} {queue : List UInt8}

/-- **A step of the kernel task** keeps the invariant, and brings it closer to an empty queue as
long as a character is on its way. -/
theorem poll (h : PipelineInv r queue) : ∃ queue', PipelineInv r.poll queue' ∧
    (queue ≠ [] ∨ r.inFlight ≠ [] →
      5 * queue'.length + r.poll.pc.rank < 5 * queue.length + r.pc.rank) := by
  cases hpc : r.pc with
  | outside =>
    obtain ⟨hinv, hnext⟩ := h.again (Or.inl hpc)
    exact ⟨queue, hinv, fun _ => by rw [hnext]; exact Nat.lt_succ_self _⟩
  | test =>
    obtain ⟨hinv, hnext⟩ := h.test hpc
    refine ⟨queue, hinv, ?_⟩
    rintro (hq | hflight)
    · rw [hnext, if_neg hq]
      exact Nat.lt_succ_self _
    · exact absurd (by rw [ConsoleRun.inFlight, hpc]) hflight
  | read =>
    obtain ⟨c, hinv, hnext⟩ := h.read hpc
    exact ⟨queue, hinv, fun _ => by rw [hnext]; exact Nat.lt_succ_self _⟩
  | advance c =>
    obtain ⟨rest, rfl, hinv, hnext⟩ := h.advance hpc
    refine ⟨rest, hinv, fun _ => ?_⟩
    rw [hnext, List.length_cons]
    simp only [PollPc.rank]
    omega
  | input c =>
    obtain ⟨hinv, hnext⟩ := h.input hpc
    exact ⟨queue, hinv, fun _ => by rw [hnext]; exact Nat.lt_succ_self _⟩
  | inside =>
    obtain ⟨hinv, hnext⟩ := h.again (Or.inr hpc)
    exact ⟨queue, hinv, fun _ => by rw [hnext]; exact Nat.lt_succ_self _⟩

/-- **Every event** keeps the invariant. -/
theorem apply (h : PipelineInv r queue) (e : ConsoleEvent) :
    ∃ queue', PipelineInv (e.apply r) queue' := by
  cases e with
  | push c => exact ⟨_, h.push c⟩
  | poll =>
    obtain ⟨queue', hinv, -⟩ := h.poll
    exact ⟨queue', hinv⟩

theorem foldl (h : PipelineInv r queue) (events : List ConsoleEvent) :
    ∃ queue', PipelineInv (events.foldl ConsoleEvent.apply r) queue' := by
  induction events generalizing r queue with
  | nil => exact ⟨queue, h⟩
  | cons e events ih =>
    obtain ⟨queue', hinv⟩ := h.apply e
    exact ih hinv

theorem poll_accepted (r : ConsoleRun) : r.poll.accepted = r.accepted := by
  unfold ConsoleRun.poll
  cases r.pc <;> rfl

/-- **Left alone**, the kernel task gives every accepted character to the editor. -/
theorem drains (h : PipelineInv r queue) : ∃ k, (ConsoleRun.poll^[k] r).given = r.accepted := by
  induction hm : 5 * queue.length + r.pc.rank using Nat.strong_induction_on
    generalizing r queue with
  | _ m ih =>
    by_cases hdone : queue ≠ [] ∨ r.inFlight ≠ []
    · obtain ⟨queue', hinv, hless⟩ := h.poll
      obtain ⟨k, hk⟩ := ih _ (hm ▸ hless hdone) hinv rfl
      refine ⟨k + 1, ?_⟩
      rw [Function.iterate_succ_apply, hk, poll_accepted]
    · simp only [ne_eq, not_or, not_not] at hdone
      refine ⟨0, ?_⟩
      rw [h.stream, hdone.1, hdone.2, List.append_nil, List.append_nil]
      rfl

end PipelineInv

/-- **The console's input pipeline.** In every interleaving of pushes with the steps of
`shell_poll`: what was accepted is what was given to the editor, then the character in flight, then
the characters pending, and left alone the kernel task gives all of it to the editor; the buffers
passed to `shell_execute` hold, as strings that end inside `line_buf`, the lines of the stream given
to the editor; and `line_len` stays inside `line_buf`. -/
theorem console_pipeline (lineBuf : ℤ → UInt8) (ring : ℕ → UInt8) (events : List ConsoleEvent) :
    (∃ queue, (consoleRun lineBuf ring events).accepted =
        (consoleRun lineBuf ring events).given ++ (consoleRun lineBuf ring events).inFlight ++
          queue ∧
      queue.length = (consoleRun lineBuf ring events).pending ∧ queue.length < ringSize) ∧
    (∃ k, (ConsoleRun.poll^[k] (consoleRun lineBuf ring events)).given =
      (consoleRun lineBuf ring events).accepted) ∧
    List.Forall₂ CString (consoleRun lineBuf ring events).executed
      (lines (consoleRun lineBuf ring events).given) ∧
    0 ≤ (consoleRun lineBuf ring events).console.lineLen ∧
    (consoleRun lineBuf ring events).console.lineLen ≤ lineMax - 1 := by
  obtain ⟨queue, h⟩ := (PipelineInv.boot lineBuf ring).foldl events
  exact ⟨⟨queue, h.stream, h.pending.symm, h.ring.short⟩, h.drains, h.edits.executed_lines,
    h.edits.lineLen_bounds⟩

end JarvisOS
