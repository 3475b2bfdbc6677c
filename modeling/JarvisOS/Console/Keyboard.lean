import JarvisOS.Console.Typing
import JarvisOS.Foundations.History

/-!
# The keyboard

`keyboard_handler` gets one scancode at a time and keeps one flag for the two shift keys: it is set
when a shift has been pressed since one was released (`shiftDown_iff`). A shift key that is held may
have been pressed before the other was released, and then the flag is clear; `follows_shift_iff`
says that this is the only way in which a character comes from the wrong map.
-/

namespace JarvisOS

open Foundations

/-! ## The handler -/

/-- `normal_map`. -/
def normalMap : List UInt8 :=
  [0, 0] ++ literal "1234567890-=" ++ [0] ++ literal "\tqwertyuiop[]\n" ++
    [0] ++ literal "asdfghjkl;'`" ++
    [0] ++ literal "\\zxcvbnm,./" ++ [0] ++ literal "*" ++ [0] ++ literal " " ++ [0]

/-- `shift_map`. -/
def shiftMap : List UInt8 :=
  [0, 0] ++ literal "!@#$%^&*()_+" ++ [0] ++ literal "\tQWERTYUIOP\x7b\x7d\n" ++ [0] ++
    literal "ASDFGHJKL:\"~" ++ [0] ++ literal "|ZXCVBNM<>?" ++ [0] ++ literal "*" ++
      [0] ++ literal " " ++ [0]

/-- What stands in a map for a scancode. -/
def mapChar (map : List UInt8) (sc : UInt8) : UInt8 := map.getD sc.toNat 0

/-- `shift_down`, and the console that the characters go to. -/
structure Keyboard where
  shiftDown : ℤ
  console : Console

/-- The keyboard driver after booting. -/
def Keyboard.boot (console : Console) : Keyboard := ⟨0, console⟩

/-- `shell_push_char`, called by the handler. -/
def Keyboard.push (c : UInt8) (s : Keyboard) : Option UInt8 × Keyboard :=
  (some c, { s with console := shellPushChar c s.console })

/-- `keyboard_handler`: the character it pushes, if any, and the variables afterwards. -/
def keyboardHandler (sc : UInt8) (s : Keyboard) : Option UInt8 × Keyboard :=
  if sc = 0x2A ∨ sc = 0x36 then (none, { s with shiftDown := 1 })
  else if sc = 0xAA ∨ sc = 0xB6 then (none, { s with shiftDown := 0 })
  else if sc &&& 0x80 ≠ 0 then (none, s)
  else if sc = 0x0E then s.push backspaceChar
  else
    let c := if sc.toNat < normalMap.length then
      mapChar (if s.shiftDown ≠ 0 then shiftMap else normalMap) sc else 0
    if c = 0 then (none, s) else s.push c

/-- The handler is called for one scancode after the other. -/
def keyboardRun (codes : List UInt8) (s : Keyboard) : Keyboard :=
  codes.foldl (fun s sc => (keyboardHandler sc s).2) s

/-! ## The keys -/

/-- The shift keys. -/
inductive ShiftKey
  | left
  | right
  deriving DecidableEq

namespace ShiftKey

/-- The scancode of the key when it is pressed. -/
def pressCode : ShiftKey → UInt8
  | left => 0x2A
  | right => 0x36

/-- The scancode of the key when it is released. -/
def releaseCode : ShiftKey → UInt8
  | left => 0xAA
  | right => 0xB6

/-- After these scancodes the key is held down. -/
def Held (k : ShiftKey) (codes : List UInt8) : Prop :=
  Since (· = k.pressCode) (· = k.releaseCode) codes

instance (k : ShiftKey) (codes : List UInt8) : Decidable (k.Held codes) :=
  inferInstanceAs (Decidable (Since _ _ _))

end ShiftKey

/-- A shift key is pressed. -/
def PressesShift (sc : UInt8) : Prop := ∃ k : ShiftKey, sc = k.pressCode

/-- A shift key is released. -/
def ReleasesShift (sc : UInt8) : Prop := ∃ k : ShiftKey, sc = k.releaseCode

/-- At least one shift key is held down. -/
def ShiftHeld (codes : List UInt8) : Prop := ∃ k : ShiftKey, k.Held codes

/-- A shift key is held down, but the last thing that has happened to a shift key is a release. -/
def ReleasedOver (codes : List UInt8) : Prop :=
  ShiftHeld codes ∧ Since ReleasesShift PressesShift codes

/-- The keyboard presses only keys that are up and releases only keys that are held. -/
def Physical (codes : List UInt8) : Prop := ∀ (before : List UInt8) (k : ShiftKey),
  (before ++ [k.pressCode] <+: codes → ¬ k.Held before) ∧
    (before ++ [k.releaseCode] <+: codes → k.Held before)

/-- Every character pushed, other than backspace, is the one that the map for the keys held has for
the scancode. -/
def FollowsShift (s : Keyboard) (codes : List UInt8) : Prop :=
  ∀ before sc, before ++ [sc] <+: codes → ∀ c, (keyboardHandler sc (keyboardRun before s)).1 =
    some c →
    c ≠ backspaceChar →
      (ShiftHeld before → c = mapChar shiftMap sc) ∧ (¬ ShiftHeld before → c = mapChar normalMap sc)

/-! ## The scancodes of the shift keys -/

theorem pressesShift_iff {sc : UInt8} : PressesShift sc ↔ sc = 0x2A ∨ sc = 0x36 := by
  constructor
  · rintro ⟨k, rfl⟩
    cases k <;> decide
  · rintro (rfl | rfl)
    · exact ⟨.left, rfl⟩
    · exact ⟨.right, rfl⟩

theorem releasesShift_iff {sc : UInt8} : ReleasesShift sc ↔ sc = 0xAA ∨ sc = 0xB6 := by
  constructor
  · rintro ⟨k, rfl⟩
    cases k <;> decide
  · rintro (rfl | rfl)
    · exact ⟨.left, rfl⟩
    · exact ⟨.right, rfl⟩

theorem PressesShift.not_releases {sc : UInt8} (h : PressesShift sc) : ¬ ReleasesShift sc := by
  rw [releasesShift_iff]
  rcases pressesShift_iff.1 h with rfl | rfl <;> decide

/-- A shift key that has been pressed since one was released is held. -/
theorem shiftHeld_of_since {codes : List UInt8} (h : Since PressesShift ReleasesShift codes) :
    ShiftHeld codes := by
  obtain ⟨k, hk⟩ := since_exists.1 h
  exact ⟨k, hk.mono (fun _ => id) fun _ hsc => ⟨k, hsc⟩⟩

theorem ShiftHeld.exists_press {codes : List UInt8} (h : ShiftHeld codes) :
    ∃ sc ∈ codes, PressesShift sc := by
  obtain ⟨k, hk⟩ := h
  obtain ⟨sc, hmem, hsc⟩ := Since.exists_mem hk
  exact ⟨sc, hmem, k, hsc⟩

/-! ## The flag -/

/-- **One scancode** and the flag. -/
theorem keyboardHandler_shiftDown (sc : UInt8) (s : Keyboard) :
    (keyboardHandler sc s).2.shiftDown ≠ 0 ↔
    PressesShift sc ∨ (¬ ReleasesShift sc ∧ s.shiftDown ≠ 0) := by
  rw [pressesShift_iff, releasesShift_iff]
  simp only [keyboardHandler, Keyboard.push]
  split_ifs <;> simp_all

/-- **The flag after a run**: a shift has been pressed since one was released. -/
theorem shiftDown_iff (console : Console) (codes : List UInt8) :
    (keyboardRun codes (.boot console)).shiftDown ≠ 0 ↔ Since PressesShift ReleasesShift codes := by
  induction codes using List.reverseRecOn with
  | nil => simp [keyboardRun, Keyboard.boot]
  | append_singleton codes sc ih =>
    rw [since_concat, ← ih, keyboardRun, List.foldl_append]
    exact keyboardHandler_shiftDown sc _

theorem ReleasedOver.shiftDown {codes : List UInt8} (h : ReleasedOver codes) (console : Console) :
    (keyboardRun codes (.boot console)).shiftDown = 0 := by
  by_contra hdown
  exact ((shiftDown_iff console codes).1 hdown).not_since (fun _ hp => hp.not_releases) h.2

/-- Unless a shift has been released over another, the flag says whether one is held. -/
theorem shiftDown_iff_held {codes : List UInt8} (h : ¬ ReleasedOver codes) (console : Console) :
    (keyboardRun codes (.boot console)).shiftDown ≠ 0 ↔ ShiftHeld codes := by
  rw [shiftDown_iff]
  constructor
  · exact shiftHeld_of_since
  · intro hheld
    obtain ⟨sc, hmem, hsc⟩ := hheld.exists_press
    rcases since_or_since (Q := ReleasesShift) ⟨sc, hmem, Or.inl hsc⟩ with hsince | hsince
    · exact hsince
    · exact absurd ⟨hheld, hsince⟩ h

/-! ## The characters -/

/-- What is pushed stands in the map that the flag selects. -/
theorem keyboardHandler_char {sc c : UInt8} {s : Keyboard} (h : (keyboardHandler sc s).1 = some c)
    (hc : c ≠ backspaceChar) : c = mapChar (if s.shiftDown ≠ 0 then shiftMap else normalMap)
      sc := by
  simp only [keyboardHandler, Keyboard.push] at h
  split_ifs at h <;> simp_all

/-- A scancode that types a character, whichever map is used. -/
structure TypesChar (sc : UInt8) : Prop where
  not_press : ¬ (sc = 0x2A ∨ sc = 0x36)
  not_release : ¬ (sc = 0xAA ∨ sc = 0xB6)
  low : sc &&& 0x80 = 0
  not_backspace : sc ≠ 0x0E
  inside : sc.toNat < normalMap.length
  chars : ∀ map ∈ [normalMap, shiftMap], mapChar map sc ≠ 0 ∧ mapChar map sc ≠ backspaceChar

/-- Where the two maps differ, both have a character to type. -/
theorem TypesChar.of_ne {sc : UInt8} (h : mapChar normalMap sc ≠ mapChar shiftMap sc) :
    TypesChar sc := by
  have hlengths : normalMap.length = 59 ∧ shiftMap.length = 59 := by decide +kernel
  have hlt : sc.toNat < 59 := by
    by_contra hge
    apply h
    rw [mapChar, mapChar, List.getD_eq_default _ _ (by omega), List.getD_eq_default _ _ (by omega)]
  have htable : ∀ n < 59, mapChar normalMap (UInt8.ofNat n) ≠ mapChar shiftMap (UInt8.ofNat n) →
      ¬ (UInt8.ofNat n = 0x2A ∨ UInt8.ofNat n = 0x36) ∧
        ¬ (UInt8.ofNat n = 0xAA ∨ UInt8.ofNat n = 0xB6) ∧
        UInt8.ofNat n &&& 0x80 = 0 ∧ UInt8.ofNat n ≠ 0x0E ∧ ∀ map ∈ [normalMap, shiftMap],
          mapChar map (UInt8.ofNat n) ≠ 0 ∧ mapChar map (UInt8.ofNat n) ≠ backspaceChar := by
    decide +kernel
  have hsc := htable sc.toNat hlt
  rw [UInt8.ofNat_toNat] at hsc
  obtain ⟨hpress, hrelease, hlow, hback, hchars⟩ := hsc h
  exact ⟨hpress, hrelease, hlow, hback, by omega, hchars⟩

theorem TypesChar.handler {sc : UInt8} (h : TypesChar sc) (s : Keyboard) :
    (keyboardHandler sc s).1 = some
      (mapChar (if s.shiftDown ≠ 0 then shiftMap else normalMap) sc) := by
  have hmap : (if s.shiftDown ≠ 0 then shiftMap else normalMap) ∈ [normalMap, shiftMap] := by
    split_ifs <;> simp
  unfold keyboardHandler
  rw [if_neg h.not_press, if_neg h.not_release, if_neg (not_not.2 h.low), if_neg h.not_backspace]
  simp only [if_pos h.inside, if_neg (h.chars _ hmap).1]
  rfl

/-- **Shift and the characters typed.** In every run from boot on, every character comes from the
map for the keys held, if and only if no key that shift makes a difference for is pressed while a
shift key is held and another one has been released since. -/
theorem follows_shift_iff (console : Console) (codes : List UInt8) :
    FollowsShift (.boot console) codes ↔ ∀ before sc, before ++ [sc] <+: codes →
      mapChar normalMap sc ≠ mapChar shiftMap sc → ¬ ReleasedOver before := by
  constructor
  · intro hfollows before sc hpre hne hover
    have hpush := (TypesChar.of_ne hne).handler (keyboardRun before (.boot console))
    rw [if_neg (not_not.2 (hover.shiftDown console))] at hpush
    have hback := ((TypesChar.of_ne hne).chars normalMap (by simp)).2
    exact hne ((hfollows before sc hpre _ hpush hback).1 hover.1)
  · intro hnone before sc hpre c hpush hback
    have hc := keyboardHandler_char hpush hback
    by_cases hne : mapChar normalMap sc = mapChar shiftMap sc
    · have hsame : c = mapChar normalMap sc := by
        rw [hc]
        split_ifs
        · exact hne.symm
        · rfl
      exact ⟨fun _ => hsame.trans hne, fun _ => hsame⟩
    · have hflag := shiftDown_iff_held (hnone before sc hpre hne) console
      constructor
      · intro hheld
        rwa [if_pos (hflag.2 hheld)] at hc
      · intro hheld
        rwa [if_neg (mt hflag.1 hheld)] at hc

theorem physical_nil : Physical [] := by
  intro before k
  constructor <;> intro hpre <;> simp at hpre

theorem physical_concat {codes : List UInt8} {sc : UInt8} :
    Physical (codes ++ [sc]) ↔ Physical codes ∧
    ∀ k : ShiftKey, (sc = k.pressCode → ¬ k.Held codes) ∧ (sc = k.releaseCode → k.Held codes) := by
  unfold Physical
  simp only [List.prefix_concat_iff, List.append_singleton_inj]
  constructor
  · intro h
    refine ⟨fun before k =>
      ⟨fun hpre => (h before k).1 (Or.inr hpre), fun hpre => (h before k).2 (Or.inr hpre)⟩,
      fun k => ⟨?_, ?_⟩⟩
    · rintro rfl
      exact (h codes k).1 (Or.inl ⟨rfl, rfl⟩)
    · rintro rfl
      exact (h codes k).2 (Or.inl ⟨rfl, rfl⟩)
  · rintro ⟨hold, hnew⟩ before k
    constructor
    · rintro (⟨rfl, hsc⟩ | hpre)
      · exact (hnew k).1 hsc.symm
      · exact (hold before k).1 hpre
    · rintro (⟨rfl, hsc⟩ | hpre)
      · exact (hnew k).2 hsc.symm
      · exact (hold before k).2 hpre

/-- Left shift is pressed, right shift is pressed, right shift is released, and `a` is pressed. -/
def overlap : List UInt8 := [0x2A, 0x36, 0xB6, 0x1E]

/-- Left shift is held, and the handler pushes `a`. -/
theorem not_follows_shift : Physical overlap ∧ ShiftKey.left.Held [0x2A, 0x36, 0xB6] ∧
    (keyboardHandler 0x1E (keyboardRun [0x2A, 0x36, 0xB6] (.boot emptyLine))).1 = some 97 ∧
    mapChar shiftMap 0x1E = 65 ∧ ¬ FollowsShift (.boot emptyLine) overlap := by
  have hphysical : Physical ([] ++ [0x2A] ++ [0x36] ++ [0xB6] ++ [0x1E]) := by
    simp only [physical_concat]
    refine ⟨⟨⟨⟨physical_nil, ?_⟩, ?_⟩, ?_⟩, ?_⟩
    all_goals
      intro k
      cases k <;> decide
  have hheld : ShiftKey.left.Held [0x2A, 0x36, 0xB6] := by decide
  have hpush : (keyboardHandler 0x1E (keyboardRun [0x2A, 0x36, 0xB6] (.boot emptyLine))).1 =
    some 97 := by
    decide +kernel
  have hshift : mapChar shiftMap 0x1E = 65 := by decide +kernel
  refine ⟨hphysical, hheld, hpush, hshift, ?_⟩
  intro hfollows
  have hchar := (hfollows [0x2A, 0x36, 0xB6] 0x1E (List.prefix_refl _) 97 hpush (by decide)).1
    ⟨.left, hheld⟩
  rw [hshift] at hchar
  exact absurd hchar (by decide)

end JarvisOS
