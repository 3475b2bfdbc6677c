import JarvisOS.Console.Screen

/-!
# Typing on the screen

The line editor and the screen each keep their own place: `line_len`, and a row and a column. Both
are compared with the terminal of `Screen`, which numbers its cells without end. The line starts at
`start` there. A backspace that finds the cursor at the start of a row takes a character from
`line_buf` and none from the screen, so that the cursor is left one cell too far; `missed` counts
these. The prompt is 8 characters long, so this happens first when the line is 72 characters long.
-/

namespace JarvisOS

open Foundations

/-- A string literal. -/
def literal (str : String) : List UInt8 := str.toList.map fun c => c.toNat.toUInt8

/-- `shell_prompt`. -/
def shellPrompt (s : Vga) : Vga := s.print (literal "jarvis> ")

/-- What an echo is on the screen. -/
def Echo.onVga (s : Vga) : Echo → Vga
  | putchar c => s.putchar c
  | backspace => s.backspace

/-- `shell_input_char`, with the screen it writes to. -/
def typeChar (p : Console × Vga) (c : UInt8) : Console × Vga :=
  let s := (shellInputChar c { p.1 with screen := [] }).2
  (s, s.screen.foldl Echo.onVga p.2)

/-- `shell_input_char`, called on one character after the other. -/
def typeChars (p : Console × Vga) (chars : List UInt8) : Console × Vga := chars.foldl typeChar p

/-- The place of the cursor, counted in cells from the first one since the screen was cleared. -/
def Vga.place (s : Vga) : ℕ := vgaWidth * (s.scrolled + s.cursorRow) + s.cursorCol

/-- The cells from place `start` to the cursor are on the screen and spell `line_buf`, read in
row-major order across the rows and what has been scrolled away. -/
structure Spelled (start : ℕ) (p : Console × Vga) : Prop where
  place : p.2.place = start + p.1.lineLen
  cells : ∀ i : ℕ, i < p.1.lineLen → vgaWidth * p.2.scrolled ≤ start + i ∧
    p.2.cells (start + i - vgaWidth * p.2.scrolled) = vgaEntry (p.1.lineBuf i) vgaColor

/-! ## The terminal -/

/-- What a character does to the terminal when the line so far is `text`. -/
def typeOnTerminal (text : List UInt8) (c : UInt8) (t : Terminal UInt8) : Terminal UInt8 :=
  if c = backspaceChar then if text = [] then t else t.erase spaceChar
  else if Printable c ∧ text.length < lineMax - 1 then t.put vgaWidth c
  else t

/-- The line stands on the terminal from `start` on, when no erasure has been missed. -/
structure OnTerminal (start : ℕ) (text : List UInt8) (missed : ℕ) (t : Terminal UInt8) : Prop where
  col_lt : t.col < vgaWidth
  pos : t.pos vgaWidth = start + text.length + missed
  cells : missed = 0 → ∀ i (h : i < text.length), t.flat vgaWidth (start + i) = text[i]

namespace OnTerminal

variable {start missed : ℕ} {text : List UInt8} {t : Terminal UInt8} {c : UInt8}

/-- A character is put after the line. -/
theorem put (h : OnTerminal start text missed t) (c : UInt8) :
    OnTerminal start (text ++ [c]) missed (t.put vgaWidth c) where
  col_lt := Terminal.col_put_lt h.col_lt
  pos := by
    rw [Terminal.pos_put h.col_lt, h.pos, List.length_append, List.length_singleton]
    omega
  cells := by
    intro h0 i hi
    rw [List.length_append, List.length_singleton] at hi
    rw [Terminal.flat_put h.col_lt, h.pos, h0]
    by_cases hlast : i = text.length
    · subst hlast
      rw [if_pos (Nat.add_zero _).symm, List.getElem_concat_length rfl]
    · have hlt : i < text.length := by omega
      rw [if_neg (by omega), h.cells h0 i hlt, List.getElem_append_left hlt]

/-- A character is erased, within the row. -/
theorem erase (h : OnTerminal start text missed t) (hcol : t.col ≠ 0) (htext : text ≠ []) :
    OnTerminal start text.dropLast missed (t.erase spaceChar) := by
  have hlen : 0 < text.length := List.length_pos_of_ne_nil htext
  have hpos := Terminal.pos_erase (W := vgaWidth) (b := spaceChar) hcol
  have hcol_lt := Terminal.col_erase (b := spaceChar) h.col_lt
  have hat := h.pos
  refine ⟨hcol_lt, ?_, fun h0 i hi => ?_⟩
  · rw [List.length_dropLast]
    omega
  · rw [List.length_dropLast] at hi
    rw [Terminal.flat_erase h.col_lt hcol, if_neg (by omega), List.getElem_dropLast]
    exact h.cells h0 i _

/-- **The column of the cursor** after a line that started behind the prompt: it is 0 only when the
line is 72 characters long. -/
theorem col_eq_zero_iff (h : OnTerminal start text 0 t) (hstart : start % vgaWidth = 8)
    (hkept : Kept text) : t.col = 0 ↔ text.length = 72 := by
  have hpos := h.pos
  have hcol := h.col_lt
  have hshort := hkept.short
  unfold Terminal.pos at hpos
  simp only [vgaWidth, lineMax] at *
  omega

end OnTerminal

/-- The line is 72 characters long when a backspace comes. -/
def ErasesAtMargin (chars : List UInt8) : Prop :=
  ∃ before, before ++ [backspaceChar] <+: chars ∧ (editLine before).length = 72

/-- **One more character** may be the backspace. -/
theorem erasesAtMargin_concat (chars : List UInt8) (c : UInt8) : ErasesAtMargin (chars ++ [c]) ↔
    ErasesAtMargin chars ∨ c = backspaceChar ∧ (editLine chars).length = 72 := by
  constructor
  · rintro ⟨before, hpre, hlen⟩
    rcases List.prefix_concat_iff.1 hpre with heq | hpre
    · obtain ⟨rfl, hc⟩ := List.append_inj' heq rfl
      exact Or.inr ⟨(List.singleton_inj.1 hc).symm, hlen⟩
    · exact Or.inl ⟨before, hpre, hlen⟩
  · rintro (⟨before, hpre, hlen⟩ | ⟨rfl, hlen⟩)
    · exact ⟨before, hpre.trans (List.prefix_append _ _), hlen⟩
    · exact ⟨chars, List.prefix_rfl, hlen⟩

/-- Where the terminal stands after the characters typed so far. -/
def Typed (start : ℕ) (chars : List UInt8) (t : Terminal UInt8) : Prop :=
  ∃ missed, OnTerminal start (editLine chars) missed t ∧ (missed = 0 ↔ ¬ ErasesAtMargin chars)

/-- **Typing one more character** on the terminal. -/
theorem Typed.step {start : ℕ} {chars : List UInt8} {t : Terminal UInt8}
    (h : Typed start chars t) (hstart : start % vgaWidth = 8) (c : UInt8) :
    Typed start (chars ++ [c]) (typeOnTerminal (editLine chars) c t) := by
  obtain ⟨missed, hon, hmissed⟩ := h
  have hkept := kept_editLine chars
  unfold Typed typeOnTerminal
  rw [erasesAtMargin_concat, editLine_concat]
  generalize editLine chars = text at hon hkept ⊢
  unfold edit
  by_cases hb : c = backspaceChar
  · rw [if_pos hb, if_pos hb]
    by_cases htext : text = []
    · -- nothing is left to erase
      subst htext
      exact ⟨missed, hon, by simpa using hmissed⟩
    · rw [if_neg htext]
      by_cases hcol : t.col = 0
      · -- the line loses a character, the screen does not
        rw [Terminal.erase_of_col_zero hcol]
        have hlen : 0 < text.length := List.length_pos_of_ne_nil htext
        refine ⟨missed + 1, ⟨hon.col_lt, ?_, fun h0 => absurd h0 (Nat.succ_ne_zero _)⟩, ?_⟩
        · rw [hon.pos, List.length_dropLast]
          omega
        · refine ⟨fun h0 => absurd h0 (Nat.succ_ne_zero _), fun hnot => ?_⟩
          exfalso
          apply hnot
          rcases Nat.eq_zero_or_pos missed with rfl | hpos
          · exact Or.inr ⟨hb, (hon.col_eq_zero_iff hstart hkept).1 hcol⟩
          · exact Or.inl (not_not.1 (mt hmissed.2 hpos.ne'))
      · refine ⟨missed, hon.erase hcol htext, ?_⟩
        rw [hmissed, not_or]
        refine ⟨fun hnot => ⟨hnot, fun hat => hcol ?_⟩, And.left⟩
        have h0 := hmissed.2 hnot
        subst h0
        exact (hon.col_eq_zero_iff hstart hkept).2 hat.2
  · have hsame : missed = 0 ↔ ¬ (ErasesAtMargin chars ∨ c = backspaceChar ∧ text.length = 72) := by
      rw [hmissed]
      simp [hb]
    rw [if_neg hb, if_neg hb]
    split_ifs
    · exact ⟨missed, hon.put c, hsame⟩
    · exact ⟨missed, hon, hsame⟩

/-! ## The screen -/

/-- **The editor's echo** does on the screen what typing does on the terminal. -/
theorem Shows.typeChar {p : Console × Vga} {t : Terminal UInt8} {text : List UInt8} {c : UInt8}
    (h : Shows p.2 t) (hline : HoldsLine p.1 text) (hc : c ≠ newlineChar) :
    Shows (typeChar p c).2 (typeOnTerminal text c t) ∧
      HoldsLine (typeChar p c).1 (edit text c) := by
  have hcleared := hline.clear
  refine ⟨?_, (hcleared.edit hc).2⟩
  unfold JarvisOS.typeChar typeOnTerminal
  rcases hcleared.input_cases hc with ⟨hb, htext, heq⟩ | ⟨hb, hp, heq⟩ | ⟨hsame, heq⟩
  · rw [heq, if_pos hb, if_neg htext]
    exact h.backspace
  · have hput := h.putchar c
    rw [terminalPutchar, if_neg hc] at hput
    rw [heq, if_neg hb, if_pos hp]
    exact hput
  · rw [heq]
    rcases hsame with ⟨hb, htext⟩ | ⟨hb, hp⟩
    · rw [if_pos hb, if_pos htext]
      exact h
    · rw [if_neg hb, if_neg hp]
      exact h

/-- **A run of the editor**, from the state in which the line starts. -/
theorem Shows.typeChars {p : Console × Vga} {t : Terminal UInt8} {start : ℕ} (h : Shows p.2 t)
    (hlen : p.1.lineLen = 0) (hpos : t.pos vgaWidth = start) (hstart : start % vgaWidth = 8)
    {chars : List UInt8} (hchars : newlineChar ∉ chars) :
    ∃ t', Shows (typeChars p chars).2 t' ∧ HoldsLine (typeChars p chars).1 (editLine chars) ∧
      Typed start chars t' := by
  induction chars using List.reverseRecOn with
  | nil =>
    have hnone : ¬ ErasesAtMargin [] := by
      rintro ⟨before, hpre, -⟩
      exact absurd (List.prefix_nil.1 hpre) (by simp)
    have hempty (i : ℕ) : ¬ i < ([] : List UInt8).length := Nat.not_lt_zero i
    exact ⟨t, h, ⟨hlen, fun i hi => absurd hi (hempty i)⟩, 0,
      ⟨h.col_lt, hpos, fun _ i hi => absurd hi (hempty i)⟩, iff_of_true rfl hnone⟩
  | append_singleton chars c ih =>
    rw [List.mem_append, not_or] at hchars
    obtain ⟨t', hshows, hline, htyped⟩ := ih hchars.1
    have hc : c ≠ newlineChar := fun hc => hchars.2 (List.mem_singleton.2 hc.symm)
    obtain ⟨hshows', hline'⟩ := hshows.typeChar hline hc
    rw [JarvisOS.typeChars, List.foldl_append, List.foldl_cons, List.foldl_nil]
    refine ⟨_, hshows', ?_, htyped.step hstart c⟩
    rw [editLine_concat]
    exact hline'

/-- The screen's own place is the terminal's. -/
theorem Follows.place {s : Vga} {t : Terminal UInt8} (h : Follows s t) :
    s.place = t.pos vgaWidth := by
  rw [Vga.place, Terminal.pos, ← h.row, ← h.col, Nat.add_comm s.scrolled]

/-- **The screen spells the line** exactly when no erasure has been missed. The line fits on two
rows, so that its first one is still on the screen then. -/
theorem Shows.spelled_iff {p : Console × Vga} {t : Terminal UInt8} {start missed : ℕ}
    {text : List UInt8} (h : Shows p.2 t) (hline : HoldsLine p.1 text)
    (hon : OnTerminal start text missed t) (hstart : start % vgaWidth = 8) (hkept : Kept text) :
    Spelled start p ↔ missed = 0 := by
  have hplace := h.place
  have hpos := hon.pos
  have hlen := hline.len
  constructor
  · intro hspelled
    have hat := hspelled.place
    omega
  · intro h0
    have hbottom := h.bottom
    have hshort := hkept.short
    refine ⟨by omega, fun i hi => ?_⟩
    have hlt : i < text.length := by omega
    have htop : vgaWidth * p.2.scrolled ≤ start := by
      unfold Vga.place at hplace
      simp only [vgaWidth, vgaHeight, lineMax] at *
      omega
    have hindex := h.index_lt
    have hcursor := h.pos
    refine ⟨by omega, ?_⟩
    rw [h.cells _ (by omega), hline.chars i hlt, ← hon.cells h0 i hlt]
    congr 2
    omega

/-- A line without newlines moves the cursor on by its length. -/
theorem Shows.print {s : Vga} {t : Terminal UInt8} (h : Shows s t) {str : List UInt8}
    (hstr : newlineChar ∉ str) :
    ∃ t', Shows (s.print str) t' ∧ t'.pos vgaWidth = t.pos vgaWidth + str.length := by
  induction str generalizing s t with
  | nil => exact ⟨t, h, rfl⟩
  | cons c str ih =>
    rw [List.mem_cons, not_or] at hstr
    have hput := h.putchar c
    rw [terminalPutchar, if_neg (Ne.symm hstr.1)] at hput
    obtain ⟨t', hshows, hpos⟩ := ih hput hstr.2
    refine ⟨t', hshows, ?_⟩
    rw [hpos, Terminal.pos_put h.col_lt, List.length_cons]
    omega

/-- The prompt takes the first 8 cells of a row. -/
theorem Shows.shellPrompt {s : Vga} {t : Terminal UInt8} (h : Shows s t) (hcol : s.cursorCol = 0) :
    ∃ t', Shows (shellPrompt s) t' ∧ t'.pos vgaWidth % vgaWidth = 8 := by
  have hprompt : newlineChar ∉ literal "jarvis> " := by decide
  obtain ⟨t', hshows, hpos⟩ := h.print hprompt
  have hlen : (literal "jarvis> ").length = 8 := rfl
  refine ⟨t', hshows, ?_⟩
  rw [hpos, hlen, Terminal.pos, ← h.col, hcol]
  simp only [vgaWidth]
  omega

/-- An empty line. -/
def emptyLine : Console := ⟨fun _ => 0, 0, fun _ => 0, 0, 0, []⟩

/-- The screen before it is cleared at boot. -/
def bootVga : Vga := ⟨fun _ => 0, 0, 0, [], [], 0⟩

end JarvisOS
