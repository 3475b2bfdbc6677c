import JarvisOS.Console.LineEditor
import JarvisOS.Foundations.Terminal

/-!
# The VGA screen

The 80 by 25 text screen and the cursor of `vga.c`. The driver writes cells at the cursor, copies
all rows up by one when the cursor leaves the last row, and keeps no history. `Shows` says that the
screen is a window on a terminal that never scrolls: its rows are those of the terminal from row
`scrolled` on. Every operation keeps it (`screen_is_window`).
-/

namespace JarvisOS

open Foundations

/-- `VGA_WIDTH`. -/
abbrev vgaWidth : ℕ := 80

/-- `VGA_HEIGHT`. -/
abbrev vgaHeight : ℕ := 25

/-- `color`. -/
abbrev vgaColor : UInt8 := 0x0F

/-- `' '`. -/
abbrev spaceChar : UInt8 := 32

/-- `vga_entry`. A `char` is signed. -/
def vgaEntry (c color : UInt8) : UInt16 := c.toInt8.toInt16.toUInt16 ||| color.toUInt16 <<< 8

/-- The screen and the driver's variables, with what has been sent to the serial line. Two fields
are kept for the statements only: the indices that have been written, and the number of rows
scrolled since the screen was last cleared. -/
structure Vga where
  cells : ℕ → UInt16
  cursorRow : ℕ
  cursorCol : ℕ
  serial : List UInt8
  written : List ℕ
  scrolled : ℕ

namespace Vga

/-- `vga[i] = v`. -/
def setCell (s : Vga) (i : ℕ) (v : UInt16) : Vga :=
  { s with cells := Function.update s.cells i v, written := s.written ++ [i] }

/-- Write `v` to `n` cells from `start` on. -/
def fillCells (start n : ℕ) (v : UInt16) (s : Vga) : Vga :=
  (List.range n).foldl (fun s i => s.setCell (start + i) v) s

/-- `clear_screen`. -/
def clearScreen (s : Vga) : Vga :=
  { s.fillCells 0 (vgaWidth * vgaHeight) (vgaEntry spaceChar vgaColor) with
    cursorRow := 0
    cursorCol := 0
    scrolled := 0 }

/-- The loop of `scroll` that copies `n` cells, each from the row below. -/
def copyRows (n : ℕ) (s : Vga) : Vga :=
  (List.range n).foldl (fun s i => s.setCell i (s.cells (i + vgaWidth))) s

/-- `scroll`. -/
def scroll (s : Vga) : Vga :=
  let s := s.copyRows ((vgaHeight - 1) * vgaWidth)
  let s := s.fillCells ((vgaHeight - 1) * vgaWidth) vgaWidth (vgaEntry spaceChar vgaColor)
  { s with cursorRow := vgaHeight - 1, scrolled := s.scrolled + 1 }

/-- `serial_write_char`. -/
def serialWriteChar (c : UInt8) (s : Vga) : Vga := { s with serial := s.serial ++ [c] }

/-- `serial_write`. -/
def serialWrite (str : List UInt8) (s : Vga) : Vga := str.foldl (fun s c => s.serialWriteChar c) s

/-- `cursor_col = 0; cursor_row++`. -/
def nextRow (s : Vga) : Vga := { s with cursorCol := 0, cursorRow := s.cursorRow + 1 }

/-- What `putchar` does with a character other than a newline. -/
def putCell (c : UInt8) (s : Vga) : Vga :=
  let s := s.setCell (s.cursorRow * vgaWidth + s.cursorCol) (vgaEntry c vgaColor)
  let s := { s with cursorCol := s.cursorCol + 1 }
  if s.cursorCol ≥ vgaWidth then s.nextRow else s

/-- `putchar`. -/
def putchar (c : UInt8) (s : Vga) : Vga :=
  let s := s.serialWriteChar c
  let s := if c = newlineChar then s.nextRow else s.putCell c
  if s.cursorRow ≥ vgaHeight then s.scroll else s

/-- `print`. -/
def print (str : List UInt8) (s : Vga) : Vga := str.foldl (fun s c => s.putchar c) s

/-- `backspace`. -/
def backspace (s : Vga) : Vga :=
  let s := s.serialWrite [backspaceChar, spaceChar, backspaceChar]
  if s.cursorCol = 0 then s
  else
    let s := { s with cursorCol := s.cursorCol - 1 }
    s.setCell (s.cursorRow * vgaWidth + s.cursorCol) (vgaEntry spaceChar vgaColor)

/-! ## The loops -/

theorem fillCells_eq (start n : ℕ) (v : UInt16) (s : Vga) : s.fillCells start n v =
    { s with
      cells := fun i => if start ≤ i ∧ i < start + n then v else s.cells i
      written := s.written ++ (List.range n).map (start + ·) } := by
  induction n with
  | zero => simp [fillCells, show ∀ i, ¬ (start ≤ i ∧ i < start) by omega]
  | succ n ih =>
    unfold fillCells at ih ⊢
    rw [List.range_succ, List.foldl_append, List.foldl_cons, List.foldl_nil, ih, setCell,
      List.map_append, List.map_singleton, List.append_assoc]
    congr 1
    funext i
    by_cases hi : i = start + n
    · rw [hi, Function.update_self, if_pos (by omega)]
    · rw [Function.update_of_ne hi]
      simp only [show (i < start + (n + 1)) ↔ (i < start + n) by omega]

/-- The cells are read before they are overwritten. -/
theorem copyRows_eq (n : ℕ) (s : Vga) : s.copyRows n =
    { s with
      cells := fun i => if i < n then s.cells (i + vgaWidth) else s.cells i
      written := s.written ++ List.range n } := by
  induction n with
  | zero => simp [copyRows]
  | succ n ih =>
    unfold copyRows at ih ⊢
    rw [List.range_succ, List.foldl_append, List.foldl_cons, List.foldl_nil, ih, setCell,
      List.append_assoc]
    congr 1
    funext i
    by_cases hi : i = n
    · rw [hi, Function.update_self]
      simp
    · rw [Function.update_of_ne hi]
      simp only [show i < n + 1 ↔ i < n by omega]

/-- **`scroll`** moves every row up and blanks the last one. -/
theorem scroll_eq (s : Vga) : s.scroll =
    { s with
      cells := fun i =>
        if i < 1920 then s.cells (i + 80)
        else if i < 2000 then vgaEntry spaceChar vgaColor else s.cells i
      cursorRow := 24
      written := s.written ++ List.range 1920 ++ (List.range 80).map (1920 + ·)
      scrolled := s.scrolled + 1 } := by
  unfold scroll
  simp only [copyRows_eq, fillCells_eq, vgaHeight, vgaWidth]
  congr 1
  funext i
  by_cases h1 : i < 1920
  · rw [if_neg (by omega), if_pos h1, if_pos h1]
  · rw [if_neg h1, if_neg h1]
    simp only [show (1920 ≤ i ∧ i < 1920 + 80) ↔ i < 2000 by omega]

end Vga

/-! ## The window -/

/-- The screen shows the rows of a terminal from `scrolled` on, and the cursors correspond. The
cursor may have just left the last row. -/
structure Follows (s : Vga) (t : Terminal UInt8) : Prop where
  row : s.cursorRow + s.scrolled = t.row
  col : s.cursorCol = t.col
  col_lt : t.col < vgaWidth
  bottom : s.scrolled = 0 ∨ vgaHeight ≤ s.cursorRow + 1
  cells : ∀ i < vgaWidth * vgaHeight,
    s.cells i = vgaEntry (t.flat vgaWidth (vgaWidth * s.scrolled + i)) vgaColor
  ahead : t.BlankAhead vgaWidth spaceChar

/-- The screen is a window on the terminal. -/
structure Shows (s : Vga) (t : Terminal UInt8) : Prop extends Follows s t where
  row_lt : s.cursorRow < vgaHeight

/-- Only cells of the screen have been written on the way from `s` to `s'`. -/
def WritesInside (s s' : Vga) : Prop := ∀ i ∈ s'.written, i ∈ s.written ∨ i < vgaWidth * vgaHeight

namespace WritesInside

variable {s s' s'' : Vga}

theorem of_eq (h : s'.written = s.written) : WritesInside s s' := fun _ hi => Or.inl (h ▸ hi)

theorem trans (h : WritesInside s s') (h' : WritesInside s' s'') : WritesInside s s'' :=
  fun i hi => (h' i hi).elim (h i) Or.inr

theorem setCell {i : ℕ} (hi : i < vgaWidth * vgaHeight) (v : UInt16) :
    WritesInside s (s.setCell i v) := by
  intro j hj
  rcases List.mem_append.1 hj with hj | hj
  · exact Or.inl hj
  · exact Or.inr (List.mem_singleton.1 hj ▸ hi)

theorem scroll : WritesInside s s.scroll := by
  rw [Vga.scroll_eq]
  intro i hi
  simp only [List.mem_append, List.mem_map, List.mem_range] at hi
  simp only [vgaWidth, vgaHeight]
  rcases hi with (hi | hi) | ⟨j, hj, rfl⟩
  · exact Or.inl hi
  · exact Or.inr (by omega)
  · exact Or.inr (by omega)

theorem clearScreen : WritesInside s s.clearScreen := by
  intro i hi
  simp only [Vga.clearScreen, Vga.fillCells_eq, List.mem_append, List.mem_map, List.mem_range] at hi
  rcases hi with hi | ⟨j, hj, rfl⟩
  · exact Or.inl hi
  · exact Or.inr (by omega)

end WritesInside

section Window

variable {s : Vga} {t : Terminal UInt8}

/-- A cleared screen is a window on an empty terminal. -/
theorem Vga.clearScreen_shows (s : Vga) : Shows s.clearScreen (.cleared spaceChar) := by
  rw [clearScreen, fillCells_eq]
  refine ⟨⟨rfl, rfl, Nat.zero_lt_succ 79, Or.inl rfl, fun i hi => ?_, .cleared⟩,
    Nat.zero_lt_succ 24⟩
  exact if_pos ⟨Nat.zero_le _, by omega⟩

/-- The place of the cursor on the screen. -/
theorem Follows.pos (h : Follows s t) : t.pos vgaWidth =
    vgaWidth * s.scrolled + (s.cursorRow * vgaWidth + s.cursorCol) := by
  rw [Terminal.pos, ← h.row, ← h.col]
  simp only [vgaWidth]
  omega

/-- The cursor is on the screen. -/
theorem Shows.index_lt (h : Shows s t) :
    s.cursorRow * vgaWidth + s.cursorCol < vgaWidth * vgaHeight := by
  have hrow := h.row_lt
  have hcol := h.col_lt
  rw [← h.col] at hcol
  simp only [vgaWidth, vgaHeight] at *
  omega

/-- **Scrolling**, when the cursor has left the last row, moves the window down by one. -/
theorem Follows.settle (h : Follows s t) (hrow : s.cursorRow ≤ vgaHeight) (hcol : vgaHeight ≤
    s.cursorRow → t.col = 0) : Shows (if s.cursorRow ≥ vgaHeight then s.scroll else s) t := by
  split_ifs with hout
  · have heq : s.cursorRow = vgaHeight := le_antisymm hrow hout
    have hpos := h.pos
    have hc : s.cursorCol = 0 := h.col.trans (hcol hout)
    have hr := h.row
    rw [heq, hc] at hpos
    rw [heq] at hr
    simp only [vgaWidth, vgaHeight] at hpos hr
    rw [Vga.scroll_eq]
    refine ⟨⟨?_, h.col, h.col_lt, Or.inr le_rfl, fun i hi => ?_, h.ahead⟩, Nat.lt_succ_self 24⟩
    · simp only
      omega
    simp only [vgaWidth, vgaHeight] at hi ⊢
    split_ifs with hi₁
    · rw [h.cells (i + 80) (by simp only [vgaWidth, vgaHeight]; omega)]
      simp only [vgaWidth, show 80 * s.scrolled + (i + 80) = 80 * (s.scrolled + 1) + i by omega]
    · have hblank := h.ahead (80 * (s.scrolled + 1) + i) (by simp only [vgaWidth]; omega)
      simp only [vgaWidth] at hblank
      rw [hblank]
  · exact ⟨h, not_le.1 hout⟩

/-! ## One operation -/

/-- A character on the terminal. -/
def terminalPutchar (c : UInt8) (t : Terminal UInt8) : Terminal UInt8 :=
  if c = newlineChar then t.newline else t.put vgaWidth c

/-- Going to the next row. -/
theorem Follows.nextRow (h : Follows s t) : Follows s.nextRow t.newline where
  row := by
    have := h.row
    simp only [Vga.nextRow, Terminal.newline]
    omega
  col := rfl
  col_lt := Nat.zero_lt_succ 79
  bottom := h.bottom.imp id fun hb => hb.trans (Nat.le_succ _)
  cells := h.cells
  ahead := h.ahead.newline h.col_lt

/-- A cell written at the cursor. -/
theorem Follows.cells_set (h : Follows s t) (c : UInt8) : ∀ i < vgaWidth * vgaHeight,
    Function.update s.cells (s.cursorRow * vgaWidth + s.cursorCol) (vgaEntry c vgaColor) i =
      vgaEntry ((t.put vgaWidth c).flat vgaWidth (vgaWidth * s.scrolled + i)) vgaColor := by
  intro i hi
  have hpos := h.pos
  rw [Terminal.flat_put h.col_lt]
  by_cases hat : i = s.cursorRow * vgaWidth + s.cursorCol
  · rw [hat, Function.update_self, if_pos hpos.symm]
  · rw [Function.update_of_ne hat, if_neg (by omega)]
    exact h.cells i hi

/-- **Writing a character** at the cursor, which may leave the last row then. -/
theorem Shows.putCell (h : Shows s t) (c : UInt8) : Follows (s.putCell c) (t.put vgaWidth c) ∧
    (s.putCell c).cursorRow ≤ vgaHeight ∧
    (vgaHeight ≤ (s.putCell c).cursorRow → (t.put vgaWidth c).col = 0) := by
  have hcells := h.cells_set c
  have hahead := h.ahead.put h.col_lt c
  have hlt := Terminal.col_put_lt (a := c) h.col_lt
  have hrow := h.row
  have hrow_lt := h.row_lt
  have hcol := h.col
  unfold Vga.putCell Vga.nextRow Vga.setCell
  simp only
  split_ifs with hwrap
  · have hfull : ¬ t.col + 1 < vgaWidth := by omega
    have hr : (t.put vgaWidth c).row = t.row + 1 := by rw [Terminal.row_put, if_neg hfull]
    have hc : (t.put vgaWidth c).col = 0 := by rw [Terminal.col_put, if_neg hfull]
    refine ⟨⟨?_, hc.symm, hlt, h.bottom.imp id fun hb => hb.trans (Nat.le_succ _), hcells, hahead⟩,
      hrow_lt, fun _ => hc⟩
    rw [hr]
    simp only
    omega
  · have hroom : t.col + 1 < vgaWidth := by omega
    have hr : (t.put vgaWidth c).row = t.row := by rw [Terminal.row_put, if_pos hroom]
    have hc : (t.put vgaWidth c).col = t.col + 1 := by rw [Terminal.col_put, if_pos hroom]
    refine ⟨⟨hrow.trans hr.symm, ?_, hlt, h.bottom, hcells, hahead⟩, hrow_lt.le, fun hout => ?_⟩
    · rw [hc, ← hcol]
    · exact absurd hrow_lt (not_lt.2 hout)

/-- The serial line is not the screen's. -/
theorem Shows.serialWriteChar (h : Shows s t) (c : UInt8) : Shows (s.serialWriteChar c) t :=
  ⟨⟨h.row, h.col, h.col_lt, h.bottom, h.cells, h.ahead⟩, h.row_lt⟩

theorem Shows.serialWrite (h : Shows s t) (str : List UInt8) : Shows (s.serialWrite str) t := by
  induction str generalizing s with
  | nil => exact h
  | cons c str ih => exact ih (h.serialWriteChar c)

/-- **`putchar`** writes a character on the terminal. -/
theorem Shows.putchar (h : Shows s t) (c : UInt8) : Shows (s.putchar c) (terminalPutchar c t) := by
  have h' := h.serialWriteChar c
  by_cases hc : c = newlineChar
  · rw [Vga.putchar, terminalPutchar, if_pos hc, if_pos hc]
    exact h'.nextRow.settle h'.row_lt fun _ => rfl
  · rw [Vga.putchar, terminalPutchar, if_neg hc, if_neg hc]
    obtain ⟨hfollows, hrow, hcol⟩ := h'.putCell c
    exact hfollows.settle hrow hcol

/-- **`backspace`** erases a cell of the terminal. -/
theorem Shows.backspace (h : Shows s t) : Shows s.backspace (t.erase spaceChar) := by
  unfold Vga.backspace
  replace h := h.serialWrite [backspaceChar, spaceChar, backspaceChar]
  generalize s.serialWrite [backspaceChar, spaceChar, backspaceChar] = s at h
  have hcol := h.col
  by_cases h0 : t.col = 0
  · rw [Terminal.erase_of_col_zero h0]
    simp only
    rwa [if_pos (hcol.trans h0)]
  · have hpos := h.pos
    have hlt := Terminal.col_erase (b := spaceChar) h.col_lt
    have hahead := h.ahead.erase h.col_lt
    simp only
    rw [if_neg (fun hc => h0 (hcol.symm.trans hc))]
    refine ⟨⟨?_, ?_, hlt, h.bottom, ?_, hahead⟩, h.row_lt⟩
    · rw [Terminal.row_erase]
      exact h.row
    · rw [Terminal.erase, if_neg h0]
      exact congrArg (· - 1) hcol
    · intro i hi
      simp only [Vga.setCell]
      rw [Terminal.flat_erase h.col_lt h0]
      by_cases hat : i = s.cursorRow * vgaWidth + (s.cursorCol - 1)
      · rw [hat, Function.update_self, if_pos (by omega)]
      · rw [Function.update_of_ne hat, if_neg (by omega)]
        exact h.cells i hi

/-- The serial line writes no cell. -/
theorem WritesInside.serialWrite (str : List UInt8) : WritesInside s (s.serialWrite str) := by
  induction str generalizing s with
  | nil => exact .of_eq rfl
  | cons c str ih => exact WritesInside.trans (.of_eq rfl) (ih (s := s.serialWriteChar c))

/-- **`putchar` writes inside the screen.** -/
theorem Shows.writes_putchar (h : Shows s t) (c : UInt8) : WritesInside s (s.putchar c) := by
  have hcell : WritesInside s (if c = newlineChar then (s.serialWriteChar c).nextRow
      else (s.serialWriteChar c).putCell c) := by
    split_ifs with hc
    · exact .of_eq rfl
    · have hset : WritesInside s ((s.serialWriteChar c).setCell
          (s.cursorRow * vgaWidth + s.cursorCol) (vgaEntry c vgaColor)) := .setCell h.index_lt _
      unfold Vga.putCell
      simp only
      split_ifs
      · exact hset
      · exact hset
  unfold Vga.putchar
  simp only
  generalize (if c = newlineChar then (s.serialWriteChar c).nextRow
    else (s.serialWriteChar c).putCell c) = u at hcell ⊢
  split_ifs
  · exact hcell.trans .scroll
  · exact hcell

/-- **`backspace` writes inside the screen.** -/
theorem Shows.writes_backspace (h : Shows s t) : WritesInside s s.backspace := by
  have hserial := WritesInside.serialWrite (s := s) [backspaceChar, spaceChar, backspaceChar]
  unfold Vga.backspace
  replace h := h.serialWrite [backspaceChar, spaceChar, backspaceChar]
  generalize s.serialWrite [backspaceChar, spaceChar, backspaceChar] = u at h hserial
  simp only
  split_ifs with h0
  · exact hserial
  · have hlt := h.index_lt
    refine hserial.trans (WritesInside.setCell (s := { u with cursorCol := u.cursorCol - 1 }) ?_ _)
    omega

/-! ## Runs -/

/-- An operation on the screen. -/
inductive ScreenOp
  | putchar (c : UInt8)
  | backspace
  | clearScreen

namespace ScreenOp

/-- What the driver does. -/
def onVga (s : Vga) : ScreenOp → Vga
  | putchar c => s.putchar c
  | backspace => s.backspace
  | clearScreen => s.clearScreen

/-- What the operation means on a terminal. -/
def onTerminal (t : Terminal UInt8) : ScreenOp → Terminal UInt8
  | putchar c => terminalPutchar c t
  | backspace => t.erase spaceChar
  | clearScreen => .cleared spaceChar

end ScreenOp

/-- **Every operation** keeps the screen a window, and writes inside it. -/
theorem Shows.op (h : Shows s t) (o : ScreenOp) :
    Shows (o.onVga s) (o.onTerminal t) ∧ WritesInside s (o.onVga s) := by
  cases o with
  | putchar c => exact ⟨h.putchar c, h.writes_putchar c⟩
  | backspace => exact ⟨h.backspace, h.writes_backspace⟩
  | clearScreen => exact ⟨s.clearScreen_shows, .clearScreen⟩

theorem Shows.ops (h : Shows s t) (ops : List ScreenOp) :
    Shows (ops.foldl ScreenOp.onVga s) (ops.foldl ScreenOp.onTerminal t) ∧
      WritesInside s (ops.foldl ScreenOp.onVga s) := by
  induction ops generalizing s t with
  | nil => exact ⟨h, .of_eq rfl⟩
  | cons o ops ih =>
    obtain ⟨hshows, hwrites⟩ := h.op o
    obtain ⟨hshows', hwrites'⟩ := ih hshows
    exact ⟨hshows', hwrites.trans hwrites'⟩

end Window

/-- The screen after the operations, from a cleared screen on. -/
def screenAfter (s : Vga) (ops : List ScreenOp) : Vga := ops.foldl ScreenOp.onVga s.clearScreen

/-- The terminal after the operations. -/
def terminalAfter (ops : List ScreenOp) : Terminal UInt8 :=
  ops.foldl ScreenOp.onTerminal (.cleared spaceChar)

/-- A character in the last column wraps, and a newline right after it leaves an empty row. -/
example : (terminalAfter (List.replicate 80 (.putchar 65) ++ [.putchar newlineChar])).row = 2 := by
  decide +kernel

end JarvisOS
