import JarvisOS.Console.Calc
import JarvisOS.Console.Typing
import JarvisOS.Foundations.Text

/-!
# The agent at the other end of the serial line

`JarvisConsole.run` sends a command and takes the command's echo and the prompt away from what comes
back. The kernel echoes what its line editor keeps, writes a carriage return before every newline,
and prints the prompt after the command. `agent_run_iff` says that the two agree exactly for the
commands that the editor keeps whole. Texts are ASCII, where a character is its byte.
-/

namespace JarvisOS

open Foundations

/-- `'\r'`. -/
abbrev returnChar : UInt8 := 13

/-! ## The kernel's end -/

/-- What `serial_handler` pushes for a byte. -/
def serialByte (byte : UInt8) : UInt8 :=
  let byte := if byte = returnChar then newlineChar else byte
  if byte = 0x7F then backspaceChar else byte

/-- The commands of the shell, by name: what a command does with its arguments. -/
abbrev Commands := List UInt8 → Option (List UInt8 → Vga → Vga)

/-- `shell_execute`. -/
def shellExecute (commands : Commands) (line : List UInt8) (s : Vga) : Vga :=
  if line = [] then shellPrompt s
  else
    let (cmd, args) := shellWords line
    shellPrompt <|
      match commands cmd with
      | some run => run args s
      | none =>
        ((s.print (literal "unknown command: ")).print cmd).print (literal "  (try 'help')\n")

/-- The string in a line buffer. -/
def cString (buf : ℤ → UInt8) : List UInt8 :=
  ((List.range lineMax).map fun i : ℕ => buf i).takeWhile fun c => decide (c ≠ 0)

/-- `shell_input_char`, with the screen and `shell_execute`. -/
def inputChar (commands : Commands) (p : Console × Vga) (c : UInt8) : Console × Vga :=
  let r := shellInputChar c { p.1 with screen := [] }
  let s := r.2.screen.foldl Echo.onVga p.2
  (r.2,
    match r.1 with
    | some buf => shellExecute commands (cString buf) s
    | none => s)

/-- Bytes arrive on the serial line, and the shell takes them all. -/
def receive (commands : Commands) (p : Console × Vga) (bytes : List UInt8) : Console × Vga :=
  (bytes.map serialByte).foldl (inputChar commands) p

/-- What `tx` sends for what is written to the serial line: terminals want CRLF. -/
def sent (written : List UInt8) : List UInt8 := Text.insertBefore returnChar newlineChar written

/-- What comes back when the command and a carriage return are sent. -/
def reply (commands : Commands) (p : Console × Vga) (command : List UInt8) : List UInt8 :=
  sent ((receive commands p (command ++ [returnChar])).2.serial.drop p.2.serial.length)

/-! ## The agent's end -/

/-- `PROMPT`. -/
def prompt : List UInt8 := literal "jarvis> "

/-- `text.strip("\n") or "(no output)"`. -/
def stripped (text : List UInt8) : List UInt8 :=
  if Text.strip newlineChar text = [] then literal "(no output)" else Text.strip newlineChar text

/-- `JarvisConsole.run`, where `raw` is what `_read_until_prompt` returns. -/
def JarvisConsole.run (command raw : List UInt8) : List UInt8 :=
  let text := Text.replacePair returnChar newlineChar raw
  let text := Text.removePrefix command text
  let text := Text.removeSuffix prompt text
  stripped text

/-! ## What the kernel writes -/

namespace Vga

theorem scroll_serial (s : Vga) : s.scroll.serial = s.serial := by
  rw [scroll_eq]

theorem putCell_serial (c : UInt8) (s : Vga) : (s.putCell c).serial = s.serial := by
  simp only [putCell]
  split_ifs <;> rfl

/-- **`putchar`** mirrors the character to the serial line. -/
@[simp] theorem putchar_serial (c : UInt8) (s : Vga) : (s.putchar c).serial = s.serial ++ [c] := by
  have hwritten : ∀ t : Vga, (if t.cursorRow ≥ vgaHeight then t.scroll else t).serial =
    t.serial := by
    intro t
    split_ifs
    · exact t.scroll_serial
    · rfl
  simp only [putchar, hwritten]
  split_ifs
  · rfl
  · rw [putCell_serial]
    rfl

@[simp] theorem print_serial (str : List UInt8) (s : Vga) :
    (s.print str).serial = s.serial ++ str := by
  unfold print
  induction str generalizing s with
  | nil => simp
  | cons c str ih => simp [ih]

end Vga

@[simp] theorem shellPrompt_serial (s : Vga) : (shellPrompt s).serial = s.serial ++ prompt := by
  simp [shellPrompt, prompt]

theorem Printable.ne {c d : UInt8} (hc : Printable c) (hd : ¬ Printable d) : c ≠ d := by
  rintro rfl
  exact hd hc

theorem newlineChar_not_mem {chars : List UInt8} (h : ∀ c ∈ chars, Printable c) :
    newlineChar ∉ chars :=
  fun hmem => absurd (h _ hmem) (by decide)

/-- A printable character is one more for the line, while there is room. -/
theorem edit_printable {text : List UInt8} {c : UInt8} (hc : Printable c) :
    edit text c = if text.length < lineMax - 1 then text ++ [c] else text := by
  have hb : c ≠ backspaceChar := hc.ne (by decide)
  simp [edit, hb, hc]

theorem take_concat_line (chars : List UInt8) (c : UInt8) :
    (chars ++ [c]).take (lineMax - 1) =
      if (chars.take (lineMax - 1)).length < lineMax - 1 then chars.take (lineMax - 1) ++ [c]
      else chars.take (lineMax - 1) := by
  rw [List.length_take]
  split_ifs with h
  · rw [List.take_of_length_le (by simp only [List.length_append, List.length_singleton]; omega),
      List.take_of_length_le (by omega)]
  · rw [List.take_append_of_le_length (by omega)]

/-- Of printable characters the editor keeps the first 127. -/
theorem editLine_printable {chars : List UInt8} (h : ∀ c ∈ chars, Printable c) :
    editLine chars = chars.take (lineMax - 1) := by
  induction chars using List.reverseRecOn with
  | nil => rfl
  | append_singleton chars c ih =>
    have hc : Printable c := h c (by simp)
    rw [editLine_concat, ih fun d hd => h d (by simp [hd]), edit_printable hc, take_concat_line]

/-! ## The echo -/

/-- The editor holds the line, and has echoed it after what had been written before. -/
structure Echoed (before text : List UInt8) (p : Console × Vga) : Prop where
  line : HoldsLine p.1 text
  serial : p.2.serial = before ++ text

namespace Echoed

variable {before text : List UInt8} {p : Console × Vga} {c : UInt8}

theorem start (hidle : p.1.lineLen = 0) : Echoed p.2.serial [] p where
  line := ⟨hidle, fun i hi => absurd hi (Nat.not_lt_zero i)⟩
  serial := (List.append_nil _).symm

/-- **The step**: the editor echoes a printable character if it keeps it. -/
theorem step (h : Echoed before text p) (hc : Printable c) : Echoed before (edit text c)
    (typeChar p c) := by
  have hn : c ≠ newlineChar := hc.ne (by decide)
  have hb : c ≠ backspaceChar := hc.ne (by decide)
  have hcleared := h.line.clear
  constructor
  case line => exact (hcleared.edit hn).2
  case serial =>
    unfold typeChar
    rcases hcleared.input_cases hn with ⟨hback, -⟩ | ⟨-, hkept, heq⟩ | ⟨hsame, heq⟩
    · exact absurd hback hb
    · rw [heq, edit_printable hc, if_pos hkept.2]
      simp [Echo.onVga, h.serial]
    · have hfull : ¬ text.length < lineMax - 1 := by
        intro hlt
        rcases hsame with ⟨hback, -⟩ | ⟨-, hnot⟩
        · exact hb hback
        · exact hnot ⟨hc, hlt⟩
      rw [heq, edit_printable hc, if_neg hfull]
      exact h.serial

/-- **The run**: the editor echoes what it keeps. -/
theorem run (h : Echoed before [] p) {chars : List UInt8} (hchars : ∀ c ∈ chars, Printable c) :
    Echoed before (editLine chars) (typeChars p chars) := by
  induction chars using List.reverseRecOn with
  | nil => exact h
  | append_singleton chars c ih =>
    have hprev := ih fun d hd => hchars d (by simp [hd])
    rw [editLine_concat, typeChars, List.foldl_append]
    exact hprev.step (hchars c (by simp))

end Echoed

/-! ## The execution -/

/-- The string in the buffer is the line. -/
theorem CString.cString_eq {buf : ℤ → UInt8} {text : List UInt8} (h : CString buf text) :
    cString buf = text := by
  have hchars : ((List.range text.length).map fun i : ℕ => buf i) = text := by
    apply List.ext_getElem
    · simp
    · intro i hi hi'
      simpa using h.chars i hi'
  obtain ⟨k, hk⟩ : ∃ k, lineMax = text.length + (k + 1) := ⟨lineMax - text.length - 1, by
    have hinside := h.inside
    omega⟩
  have hstay : ∀ c ∈ text, decide (c ≠ 0) = true := by
    intro c hc
    have hne : c ≠ 0 := by
      rintro rfl
      exact h.nonzero hc
    simpa using hne
  rw [cString, hk, List.range_add, List.map_append, hchars, List.takeWhile_append_of_pos hstay,
    List.range_succ_eq_map]
  simp [h.terminator]

variable {commands : Commands} {p : Console × Vga} {text command T : List UInt8}

/-- Other characters than a newline execute nothing. -/
theorem inputChar_eq_typeChar {c : UInt8} (h : HoldsLine p.1 text) (hc : c ≠ newlineChar) :
    inputChar commands p c = typeChar p c ∧ HoldsLine (typeChar p c).1 (edit text c) := by
  obtain ⟨hnone, hline⟩ := h.clear.edit hc
  constructor
  · simp only [inputChar, typeChar, hnone]
  · exact hline

theorem foldl_inputChar (h : HoldsLine p.1 text) {chars : List UInt8}
    (hchars : newlineChar ∉ chars) :
    chars.foldl (inputChar commands) p = typeChars p chars := by
  induction chars generalizing p text with
  | nil => rfl
  | cons c chars ih =>
    rw [List.mem_cons, not_or] at hchars
    obtain ⟨heq, hline⟩ := inputChar_eq_typeChar h (Ne.symm hchars.1)
    rw [List.foldl_cons, heq, ih hline hchars.2, typeChars, typeChars, List.foldl_cons]

/-- **A newline** executes the line. -/
theorem inputChar_newline (h : HoldsLine p.1 text) (hk : Kept text) :
    (inputChar commands p newlineChar).2 = shellExecute commands text
      (p.2.putchar newlineChar) := by
  obtain ⟨buf, hbuf, hstring, -⟩ := h.clear.newline hk
  have hecho : (shellInputChar newlineChar { p.1 with screen := [] }).2.screen =
    [.putchar newlineChar] := rfl
  unfold inputChar
  simp only [hbuf, hecho, hstring.cString_eq, List.foldl_cons, List.foldl_nil, Echo.onVga]

/-- The screen when the command is executed. -/
def atExecution (p : Console × Vga) (command : List UInt8) : Vga :=
  (typeChars p command).2.putchar newlineChar

/-- The execution of what the editor keeps of the command prints `T`, and the prompt follows. -/
def Prints (commands : Commands) (p : Console × Vga) (command T : List UInt8) : Prop :=
  (shellExecute commands (editLine command) (atExecution p command)).serial =
    (atExecution p command).serial ++ (T ++ prompt)

theorem serialByte_printable {c : UInt8} (hc : Printable c) : serialByte c = c := by
  have hr : c ≠ returnChar := hc.ne (by decide)
  have hd : c ≠ 0x7F := hc.ne (by decide)
  simp [serialByte, hr, hd]

/-- **The reply** holds the echo of what the editor keeps. -/
theorem reply_eq (hidle : p.1.lineLen = 0) (hcmd : ∀ c ∈ command, Printable c)
    (hT : Prints commands p command T) :
    reply commands p command = sent
      (command.take (lineMax - 1) ++ newlineChar :: (T ++ prompt)) := by
  have hechoed := (Echoed.start hidle).run hcmd
  have hn := newlineChar_not_mem hcmd
  have hbytes : (command ++ [returnChar]).map serialByte = command ++ [newlineChar] := by
    rw [List.map_append, List.map_congr_left fun c hc => serialByte_printable (hcmd c hc),
      List.map_id']
    rfl
  have hexecuted : (receive commands p (command ++ [returnChar])).2 =
      shellExecute commands (editLine command) (atExecution p command) := by
    rw [receive, hbytes, List.foldl_append, foldl_inputChar (Echoed.start hidle).line hn]
    exact inputChar_newline hechoed.line (kept_editLine command)
  unfold reply
  rw [hexecuted, hT, atExecution, Vga.putchar_serial, hechoed.serial, editLine_printable hcmd]
  simp

/-! ## The agent -/

/-- A reply that begins with the command is taken apart as the agent expects. -/
theorem run_whole (command T : List UInt8) :
    JarvisConsole.run command (sent (command ++ newlineChar :: (T ++ prompt))) = stripped T := by
  have hcr : returnChar ≠ newlineChar := by decide
  unfold JarvisConsole.run sent
  simp only [Text.replacePair_insertBefore hcr, Text.removePrefix_append]
  rw [← List.cons_append, Text.removeSuffix_append, stripped, Text.strip_cons_self, ← stripped]

/-- From a reply that begins with a part of the command, the agent does not take that part away. -/
theorem run_cut (hcmd : ∀ c ∈ command, Printable c) (hlong : lineMax - 1 < command.length) :
    JarvisConsole.run command (sent (command.take (lineMax - 1) ++ newlineChar :: (T ++ prompt))) =
      command.take (lineMax - 1) ++ (newlineChar :: T).rdropWhile fun c => decide
        (c = newlineChar) := by
  have hcr : returnChar ≠ newlineChar := by decide
  have hn := newlineChar_not_mem hcmd
  have hkept : command.take (lineMax - 1) ≠ [] := by
    simp only [ne_eq, List.take_eq_nil_iff, not_or]
    exact ⟨by decide, List.ne_nil_of_length_pos (by omega)⟩
  have hecho : ¬ command <+: command.take (lineMax - 1) ++ newlineChar :: (T ++ prompt) := by
    intro hpre
    -- the command would have a newline where the editor has cut it
    have hat := List.IsPrefix.getElem hpre hlong
    rw [List.getElem_append_right (by simp)] at hat
    simp only [List.length_take, Nat.min_eq_left hlong.le, Nat.sub_self,
      List.getElem_cons_zero] at hat
    exact hn (hat ▸ List.getElem_mem hlong)
  have hstrip : Text.strip newlineChar (command.take (lineMax - 1) ++ newlineChar :: T) =
      command.take (lineMax - 1) ++ (newlineChar :: T).rdropWhile fun c => decide
        (c = newlineChar) :=
    Text.strip_append (fun hmem => hn (List.mem_of_mem_take hmem)) hkept
  have hsome : command.take (lineMax - 1) ++
      (newlineChar :: T).rdropWhile (fun c => decide (c = newlineChar)) ≠ [] := by
    intro hnil
    exact hkept (List.append_eq_nil_iff.1 hnil).1
  unfold JarvisConsole.run sent
  rw [Text.replacePair_insertBefore hcr]
  simp only
  rw [Text.removePrefix_of_not hecho, ← List.cons_append, ← List.append_assoc,
    Text.removeSuffix_append, stripped, hstrip, if_neg hsome]

/-- What stays of a cut command makes the answer longer than the text it should be. -/
theorem run_cut_ne (hcmd : ∀ c ∈ command, Printable c) (hlong : lineMax - 1 < command.length) :
    JarvisConsole.run command (sent (command.take (lineMax - 1) ++ newlineChar :: (T ++ prompt))) ≠
      stripped T := by
  rw [run_cut hcmd hlong]
  intro heq
  have hlength := congrArg List.length heq
  rw [List.length_append, List.length_take, Nat.min_eq_left hlong.le] at hlength
  have hmore := Text.length_rdropWhile_cons (fun c => decide (c = newlineChar)) newlineChar T
  have hstrip := Text.length_strip_le newlineChar T
  unfold stripped at hlength
  split_ifs at hlength with hnil
  · have hnone : (literal "(no output)").length = 11 := by decide
    simp only [lineMax] at hlength
    omega
  · simp only [lineMax] at hlength
    omega

/-- **The agent's answer** is what the command has printed, exactly for the commands that the
kernel's line editor keeps whole. -/
theorem agent_run_iff (commands : Commands) (p : Console × Vga) (command T : List UInt8)
    (hidle : p.1.lineLen = 0) (hcmd : ∀ c ∈ command, Printable c)
      (hT : Prints commands p command T) :
    JarvisConsole.run command (reply commands p command) = stripped T ↔
      command.length ≤ lineMax - 1 := by
  rw [reply_eq hidle hcmd hT]
  constructor
  · intro heq
    by_contra hlong
    exact run_cut_ne hcmd (not_le.1 hlong) heq
  · intro hshort
    rw [List.take_of_length_le hshort]
    exact run_whole command T

/-- The shell after booting, with its prompt. -/
def idleShell : Console × Vga := (emptyLine, shellPrompt (screenAfter bootVga []))

/-- A shell whose only command is `echo`. -/
def echoOnly : Commands := fun cmd =>
  if cmd = literal "echo" then some fun args s => (s.print args).print (literal "\n") else none

theorem agent_run_echo : JarvisConsole.run (literal "echo hi")
    (reply echoOnly idleShell (literal "echo hi")) = stripped (literal "hi\n") ↔
      (literal "echo hi").length ≤ lineMax - 1 := by
  apply agent_run_iff echoOnly idleShell (literal "echo hi") (literal "hi\n") rfl
  · decide +kernel
  · have hwords : shellWords (editLine (literal "echo hi")) = (literal "echo", literal "hi") := by
      decide +kernel
    have hline : editLine (literal "echo hi") ≠ [] := by decide +kernel
    have hsplit : literal "hi" ++ literal "\n" = literal "hi\n" := by decide
    simp [Prints, shellExecute, hline, hwords, echoOnly, ← hsplit]

/-- A command that is not in the table. -/
theorem prints_unknown (hline : editLine command ≠ [])
    (hnone : commands (shellWords (editLine command)).1 = none) :
    Prints commands p command (literal "unknown command: " ++ ((shellWords (editLine command)).1 ++
      literal "  (try 'help')\n")) := by
  simp [Prints, shellExecute, hline, hnone]

/-- 128 characters. -/
def longCommand : List UInt8 := List.replicate 128 97

theorem agent_run_long : idleShell.1.lineLen = 0 ∧ (∀ c ∈ longCommand, Printable c) ∧
    Prints echoOnly idleShell longCommand
      (literal "unknown command: aaaaaaaaaaaaaaaaaaaaaaaaaaaaaaa  (try 'help')\n") ∧
    JarvisConsole.run longCommand (reply echoOnly idleShell longCommand) ≠
      stripped (literal "unknown command: aaaaaaaaaaaaaaaaaaaaaaaaaaaaaaa  (try 'help')\n") := by
  have hcmd : ∀ c ∈ longCommand, Printable c := by
    intro c hc
    rw [List.eq_of_mem_replicate hc]
    decide
  have hwords : (shellWords (editLine longCommand)).1 = List.replicate 31 97 := by decide +kernel
  have htext : literal "unknown command: " ++ (List.replicate 31 97 ++ literal "  (try 'help')\n") =
      literal "unknown command: aaaaaaaaaaaaaaaaaaaaaaaaaaaaaaa  (try 'help')\n" := by
        decide +kernel
  have hprints : Prints echoOnly idleShell longCommand
      (literal "unknown command: aaaaaaaaaaaaaaaaaaaaaaaaaaaaaaa  (try 'help')\n") := by
    rw [← htext, ← hwords]
    apply prints_unknown
    · decide +kernel
    · rw [hwords]
      decide +kernel
  refine ⟨rfl, hcmd, hprints, ?_⟩
  rw [reply_eq rfl hcmd hprints]
  exact run_cut_ne hcmd (by decide +kernel)

end JarvisOS
