import JarvisOS.Foundations.RingBuffer
import JarvisOS.Foundations.Word
import Mathlib.Data.List.Forall2
import Mathlib.Data.List.Induction

/-!
# The line editor

The console's input: a ring that the interrupt handlers push characters into (`shellPushChar`) and
the editor that makes lines of them (`shellInputChar`). The editor's purpose is stated over the
stream of its characters: the stream is cut at the newlines, and each piece is edited by `edit`, one
character after the other (`lines`). `Edits.step` says that `shellInputChar` does this in
`line_buf`.
-/

namespace JarvisOS

open Foundations

/-- `LINE_MAX`. -/
abbrev lineMax : ℕ := 128

/-- `RING_SIZE`. -/
abbrev ringSize : ℕ := 256

/-- What the editor does to the screen. -/
inductive Echo
  | putchar (c : UInt8)
  | backspace
  deriving DecidableEq

/-- The variables of the line editor and its ring. `line_buf` is indexed by `int`s; its bytes are
those at `0` to `LINE_MAX - 1`. -/
structure Console where
  lineBuf : ℤ → UInt8
  lineLen : ℤ
  ring : ℕ → UInt8
  ringHead : ℕ
  ringTail : ℕ
  screen : List Echo

/-- A `char` as an integer. -/
def signed (c : UInt8) : ℤ := if c.toNat < 128 then c.toNat else c.toNat - 256

/-- `'\b'`. -/
abbrev backspaceChar : UInt8 := 8

/-- `'\n'`. -/
abbrev newlineChar : UInt8 := 10

/-- `shell_push_char`. -/
def shellPushChar (c : UInt8) (s : Console) : Console :=
  let next := u32 (s.ringHead + 1) % ringSize
  if next = s.ringTail then s
  else { s with ring := Function.update s.ring s.ringHead c, ringHead := next }

/-- `shell_input_char`: what `line_buf` holds when it is passed to `shell_execute`, if it is, and
the variables afterwards. Commands do not write to `line_buf`. -/
def shellInputChar (c : UInt8) (s : Console) : Option (ℤ → UInt8) × Console :=
  if c = backspaceChar then
    if s.lineLen > 0 then
      (none, { s with lineLen := s.lineLen - 1, screen := s.screen ++ [.backspace] })
    else (none, s)
  else if c = newlineChar then
    let lineBuf := Function.update s.lineBuf s.lineLen 0
    (some lineBuf, { s with
      lineBuf := lineBuf
      lineLen := 0
      screen := s.screen ++ [.putchar newlineChar] })
  else if signed c < signed 32 ∨ signed c > signed 126 then (none, s)
  else if s.lineLen < lineMax - 1 then
    (none, { s with
      lineBuf := Function.update s.lineBuf s.lineLen c
      lineLen := s.lineLen + 1
      screen := s.screen ++ [.putchar c] })
  else (none, s)

/-! ## Editing a stream of characters -/

/-- Printable ASCII. -/
def Printable (c : UInt8) : Prop := 32 ≤ c.toNat ∧ c.toNat ≤ 126

instance (c : UInt8) : Decidable (Printable c) := inferInstanceAs (Decidable (_ ∧ _))

/-- One character after the line so far: a backspace deletes the last character, printable ASCII is
kept while there is room, anything else is ignored. -/
def edit (text : List UInt8) (c : UInt8) : List UInt8 :=
  if c = backspaceChar then text.dropLast
  else if Printable c ∧ text.length < lineMax - 1 then text ++ [c]
  else text

/-- The line that a piece of the stream comes to. -/
def editLine (piece : List UInt8) : List UInt8 := piece.foldl edit []

/-- The lines of a stream: its pieces ended by a newline, each edited. -/
def lines (stream : List UInt8) : List (List UInt8) :=
  (stream.splitOn newlineChar).dropLast.map editLine

/-- A `char` is compared as an integer; only printable ASCII passes both tests. -/
theorem printable_iff (c : UInt8) :
    Printable c ↔ ¬ (signed c < signed 32 ∨ signed c > signed 126) := by
  have hc : c.toNat < 256 := c.toNat_lt
  have h1 : signed 32 = 32 := by decide
  have h2 : signed 126 = 126 := by decide
  rw [h1, h2]
  unfold Printable signed
  split_ifs <;> omega

/-- What the editor keeps of a line. -/
structure Kept (text : List UInt8) : Prop where
  short : text.length < lineMax
  printable : ∀ c ∈ text, Printable c

theorem Kept.nil : Kept [] := ⟨by decide, fun c hc => absurd hc List.not_mem_nil⟩

/-- **Editing keeps** the line short and printable. -/
theorem Kept.edit {text : List UInt8} (h : Kept text) (c : UInt8) : Kept (edit text c) := by
  have hshort := h.short
  unfold JarvisOS.edit
  split_ifs with hb hp
  · refine ⟨?_, fun d hd => h.printable d (List.dropLast_subset _ hd)⟩
    rw [List.length_dropLast]
    omega
  · refine ⟨?_, ?_⟩
    · rw [List.length_append, List.length_singleton]
      omega
    · intro d hd
      rcases List.mem_append.1 hd with hd | hd
      · exact h.printable d hd
      · rw [List.mem_singleton.1 hd]
        exact hp.1
  · exact h

theorem kept_editLine (piece : List UInt8) : Kept (editLine piece) := by
  unfold editLine
  induction piece using List.reverseRecOn with
  | nil => exact Kept.nil
  | append_singleton piece c ih =>
    rw [List.foldl_append, List.foldl_cons, List.foldl_nil]
    exact ih.edit c

theorem editLine_concat (piece : List UInt8) (c : UInt8) :
    editLine (piece ++ [c]) = edit (editLine piece) c := by
  rw [editLine, List.foldl_append, List.foldl_cons, List.foldl_nil]
  rfl

/-- Appending to a stream something other than the separator appends to its last piece. -/
theorem splitOn_concat {α : Type*} [BEq α] [LawfulBEq α] {a c : α} (hc : c ≠ a) {xs cur : List α}
    {ls : List (List α)} (h : xs.splitOn a = ls ++ [cur]) :
    (xs ++ [c]).splitOn a = ls ++ [cur ++ [c]] := by
  have hnil : ([] : List α).splitOn a = [[]] := List.splitOn_eq_singleton List.not_mem_nil
  induction xs generalizing ls cur with
  | nil =>
    obtain ⟨rfl, hcur⟩ :=
      List.append_inj' (show [] ++ [[]] = ls ++ [cur] from hnil.symm.trans h) rfl
    rw [← (List.cons.inj hcur).1]
    exact List.splitOn_eq_singleton (by simpa using hc.symm)
  | cons x xs ih =>
    obtain ⟨first, rest, e⟩ := List.exists_cons_of_ne_nil (List.splitOn_ne_nil a xs)
    rw [List.splitOn_cons_eq_if_modifyHead] at h
    rw [List.cons_append, List.splitOn_cons_eq_if_modifyHead]
    by_cases hx : (x == a) = true
    · -- a separator: an empty piece comes first
      rw [if_pos hx] at h ⊢
      cases ls with
      | nil => exact absurd (List.cons.inj h).2 (List.splitOn_ne_nil a xs)
      | cons l ls =>
        obtain ⟨rfl, hxs⟩ := List.cons.inj h
        rw [ih hxs]
        rfl
    · -- another character: it begins the first piece
      rw [if_neg hx, e, List.modifyHead_cons] at h
      rw [if_neg hx]
      cases ls with
      | nil =>
        obtain ⟨rfl, rfl⟩ := List.cons.inj h
        rw [ih (show xs.splitOn a = [] ++ [first] from e)]
        rfl
      | cons l ls =>
        obtain ⟨rfl, rfl⟩ := List.cons.inj h
        rw [ih (show xs.splitOn a = (first :: ls) ++ [cur] from e)]
        rfl

/-! ## The editor in memory -/

/-- `line_buf` holds the line, without a terminator. -/
structure HoldsLine (s : Console) (text : List UInt8) : Prop where
  len : s.lineLen = text.length
  chars : ∀ i (h : i < text.length), s.lineBuf i = text[i]

/-- The bytes at `buf` are the line as a string, with its terminator, inside `line_buf`. -/
structure CString (buf : ℤ → UInt8) (text : List UInt8) : Prop where
  chars : ∀ i (h : i < text.length), buf i = text[i]
  terminator : buf text.length = 0
  nonzero : 0 ∉ text
  inside : text.length < lineMax

namespace HoldsLine

variable {s : Console} {text : List UInt8} {c : UInt8}

/-- What has been echoed plays no part. -/
theorem clear (h : HoldsLine s text) : HoldsLine { s with screen := [] } text := ⟨h.len, h.chars⟩

/-- **A newline** passes the line to `shell_execute` and starts an empty one. -/
theorem newline (h : HoldsLine s text) (hk : Kept text) : ∃ buf,
    (shellInputChar newlineChar s).1 = some buf ∧ CString buf text ∧
      HoldsLine (shellInputChar newlineChar s).2 [] := by
  refine ⟨Function.update s.lineBuf s.lineLen 0, rfl, ⟨?_, ?_, ?_, hk.short⟩, rfl, ?_⟩
  · intro i hi
    rw [Function.update_of_ne (by rw [h.len]; omega), h.chars i hi]
  · rw [← h.len, Function.update_self]
  · intro hzero
    exact absurd (hk.printable 0 hzero).1 (by decide)
  · intro i hi
    exact absurd hi (Nat.not_lt_zero i)

/-- **What any other character does**: it deletes a character, adds one, or is ignored. -/
theorem input_cases (h : HoldsLine s text) (hc : c ≠ newlineChar) :
    (c = backspaceChar ∧ text ≠ [] ∧ shellInputChar c s =
        (none, { s with lineLen := s.lineLen - 1, screen := s.screen ++ [.backspace] })) ∨
      (c ≠ backspaceChar ∧ (Printable c ∧ text.length < lineMax - 1) ∧ shellInputChar c s =
        (none, { s with
          lineBuf := Function.update s.lineBuf s.lineLen c
          lineLen := s.lineLen + 1
          screen := s.screen ++ [.putchar c] })) ∨
      (((c = backspaceChar ∧ text = []) ∨
          (c ≠ backspaceChar ∧ ¬ (Printable c ∧ text.length < lineMax - 1))) ∧
        shellInputChar c s = (none, s)) := by
  have hlen := h.len
  have hroom : s.lineLen < lineMax - 1 ↔ text.length < lineMax - 1 := by
    simp only [lineMax]
    omega
  unfold shellInputChar
  by_cases hb : c = backspaceChar
  · rw [if_pos hb]
    by_cases htext : text = []
    · rw [if_neg (by simp [hlen, htext])]
      exact Or.inr (Or.inr ⟨Or.inl ⟨hb, htext⟩, rfl⟩)
    · have hpos := List.length_pos_of_ne_nil htext
      rw [if_pos (by omega)]
      exact Or.inl ⟨hb, htext, rfl⟩
  · rw [if_neg hb, if_neg hc]
    by_cases hp : Printable c
    · rw [if_neg ((printable_iff c).1 hp)]
      by_cases hlt : text.length < lineMax - 1
      · rw [if_pos (hroom.2 hlt)]
        exact Or.inr (Or.inl ⟨hb, ⟨hp, hlt⟩, rfl⟩)
      · rw [if_neg (mt hroom.1 hlt)]
        exact Or.inr (Or.inr ⟨Or.inr ⟨hb, fun hboth => hlt hboth.2⟩, rfl⟩)
    · rw [if_pos (not_not.1 (mt (printable_iff c).2 hp))]
      exact Or.inr (Or.inr ⟨Or.inr ⟨hb, fun hboth => hp hboth.1⟩, rfl⟩)

/-- **Any other character** edits the line. -/
theorem edit (h : HoldsLine s text) (hc : c ≠ newlineChar) :
    (shellInputChar c s).1 = none ∧ HoldsLine (shellInputChar c s).2 (edit text c) := by
  have hlen := h.len
  unfold JarvisOS.edit
  rcases h.input_cases hc with ⟨hb, htext, heq⟩ | ⟨hb, hp, heq⟩ | ⟨hsame, heq⟩
  · have hpos := List.length_pos_of_ne_nil htext
    rw [heq, if_pos hb]
    refine ⟨rfl, ?_, fun i hi => ?_⟩
    · rw [List.length_dropLast]
      simp only
      omega
    · rw [List.getElem_dropLast]
      exact h.chars i _
  · rw [heq, if_neg hb, if_pos hp, hlen]
    refine ⟨rfl, ?_, fun i hi => ?_⟩
    · rw [List.length_append, List.length_singleton]
      simp only
      omega
    · rw [List.length_append, List.length_singleton] at hi
      by_cases hlast : i = text.length
      · subst hlast
        simp
      · have hi' : i < text.length := by omega
        simp only
        rw [Function.update_of_ne (by omega), h.chars i hi', List.getElem_append_left hi']
  · rw [heq]
    rcases hsame with ⟨hb, rfl⟩ | ⟨hb, hp⟩
    · rw [if_pos hb]
      exact ⟨rfl, h⟩
    · rw [if_neg hb, if_neg hp]
      exact ⟨rfl, h⟩

/-- The line's length stays inside `line_buf`. -/
theorem lineLen_bounds (h : HoldsLine s text) (hk : Kept text) :
    0 ≤ s.lineLen ∧ s.lineLen ≤ lineMax - 1 := by
  have hlen := h.len
  have hshort := hk.short
  simp only [lineMax] at *
  omega

end HoldsLine

/-- After the characters `given`, the buffers passed to `shell_execute` hold the lines of the
stream, and `line_buf` the one that is being edited. -/
def Edits (given : List UInt8) (executed : List (ℤ → UInt8)) (s : Console) : Prop :=
  ∃ ls cur, given.splitOn newlineChar = ls ++ [cur] ∧
    List.Forall₂ CString executed (ls.map editLine) ∧ HoldsLine s (editLine cur)

namespace Edits

variable {given : List UInt8} {executed : List (ℤ → UInt8)} {s : Console}

theorem start (hs : s.lineLen = 0) : Edits [] [] s :=
  ⟨[], [], List.splitOn_eq_singleton List.not_mem_nil, List.Forall₂.nil, hs,
    fun i hi => absurd hi (Nat.not_lt_zero i)⟩

/-- **The editor edits the stream**: one more character. -/
theorem step (h : Edits given executed s) (c : UInt8) :
    Edits (given ++ [c]) (executed ++ (shellInputChar c s).1.toList) (shellInputChar c s).2 := by
  obtain ⟨ls, cur, hsplit, hexec, hline⟩ := h
  by_cases hc : c = newlineChar
  · subst hc
    obtain ⟨buf, hbuf, hstring, hempty⟩ := hline.newline (kept_editLine cur)
    refine ⟨ls ++ [cur], [], ?_, ?_, hempty⟩
    · rw [List.splitOn_append_cons_self, hsplit, List.splitOn_eq_singleton List.not_mem_nil]
    · rw [hbuf, List.map_append]
      exact List.rel_append hexec (List.Forall₂.cons hstring List.Forall₂.nil)
  · obtain ⟨hnone, hedit⟩ := hline.edit hc
    refine ⟨ls, cur ++ [c], splitOn_concat hc hsplit, ?_, ?_⟩
    · rw [hnone, Option.toList_none, List.append_nil]
      exact hexec
    · rw [editLine_concat]
      exact hedit

/-- The buffers passed to `shell_execute` hold the lines of the stream. -/
theorem executed_lines (h : Edits given executed s) :
    List.Forall₂ CString executed (lines given) := by
  obtain ⟨ls, cur, hsplit, hexec, -⟩ := h
  rwa [lines, hsplit, List.dropLast_concat]

theorem lineLen_bounds (h : Edits given executed s) : 0 ≤ s.lineLen ∧ s.lineLen ≤ lineMax - 1 := by
  obtain ⟨-, cur, -, -, hline⟩ := h
  exact hline.lineLen_bounds (kept_editLine cur)

/-- The editor's state depends on `line_buf` and `line_len` only. -/
theorem congr {t : Console} (h : Edits given executed s) (hbuf : t.lineBuf = s.lineBuf)
    (hlen : t.lineLen = s.lineLen) : Edits given executed t := by
  obtain ⟨ls, cur, hsplit, hexec, hline⟩ := h
  exact ⟨ls, cur, hsplit, hexec, hlen.trans hline.len, fun i hi => by rw [hbuf, hline.chars i hi]⟩

end Edits

/-! ## The ring in memory -/

namespace Console

/-- The console's ring. -/
def view (s : Console) : RingBuffer UInt8 := ⟨s.ring, s.ringHead, s.ringTail⟩

theorem view_shellPushChar (c : UInt8) {s : Console} (h : s.ringHead < ringSize) :
    (shellPushChar c s).view = s.view.push ringSize c := by
  have hnext : u32 (s.ringHead + 1) = s.ringHead + 1 :=
    u32_of_lt ((Nat.succ_le_of_lt h).trans_lt (by decide))
  have hpush : shellPushChar c s = if (s.ringHead + 1) % ringSize = s.ringTail then s
      else { s with
        ring := Function.update s.ring s.ringHead c
        ringHead := (s.ringHead + 1) % ringSize } := by
    simp only [shellPushChar, hnext]
  rw [hpush]
  by_cases hfull : (s.ringHead + 1) % ringSize = s.ringTail
  · rw [if_pos hfull]
    exact (if_pos hfull).symm
  · rw [if_neg hfull]
    exact (if_neg hfull).symm

theorem shellPushChar_line (c : UInt8) (s : Console) :
    (shellPushChar c s).lineBuf = s.lineBuf ∧ (shellPushChar c s).lineLen = s.lineLen := by
  simp only [shellPushChar]
  split_ifs <;> exact ⟨rfl, rfl⟩

theorem view_shellInputChar (c : UInt8) (s : Console) : (shellInputChar c s).2.view = s.view := by
  unfold shellInputChar
  split_ifs <;> rfl

end Console

end JarvisOS
