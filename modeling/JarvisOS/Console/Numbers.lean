import JarvisOS.Console.Typing
import JarvisOS.Foundations.Digits

/-!
# Numbers on the console

The number routines of `util.c` and `vga.c`. An `int` is an `Int32` and a `uint32_t` a `UInt32`,
whose arithmetic wraps around; a string is the list of its characters before the terminator. What
`print_int` and `print_hex` print is read back by `atoi` and `atoi_hex`, except for the least `int`:
its negation is itself, so that `print_int` finds no digits to print
(`printed_numbers_read_back_iff`).
-/

namespace JarvisOS

open Foundations

/-- `'-'`. -/
abbrev minusChar : UInt8 := 45

/-- `'0'`. -/
abbrev zeroChar : UInt8 := 48

/-- `c >= '0' && c <= '9'`. -/
def isDigit (c : UInt8) : Bool := decide (signed zeroChar ≤ signed c ∧ signed c ≤ signed 57)

/-- A `char` in an `int` expression. -/
def charInt (c : UInt8) : Int32 := .ofInt (signed c)

/-- The loop of `atoi`. -/
def atoiLoop (s : List UInt8) : Int32 :=
  (s.takeWhile isDigit).foldl (fun n c => n * 10 + (charInt c - charInt zeroChar)) 0

/-- `atoi`. -/
def atoi (s : List UInt8) : Int32 :=
  if s.head? = some minusChar then atoiLoop s.tail * -1 else atoiLoop s * 1

/-- The digit that a character is in `atoi_hex`. -/
def hexValue (c : UInt8) : Option UInt32 :=
  if signed zeroChar ≤ signed c ∧ signed c ≤ signed 57 then
    some (charInt c - charInt zeroChar).toUInt32
  else if signed 97 ≤ signed c ∧ signed c ≤ signed 102 then
    some (charInt c - charInt 97 + 10).toUInt32
  else if signed 65 ≤ signed c ∧ signed c ≤ signed 70 then
    some (charInt c - charInt 65 + 10).toUInt32
  else none

/-- The loop of `atoi_hex`. -/
def atoiHexLoop (n : UInt32) : List UInt8 → UInt32
  | [] => n
  | c :: s => match hexValue c with
    | some d => atoiHexLoop (n * 16 + d) s
    | none => n

/-- `while (*s == ' ') s++;` -/
def skipSpaces (s : List UInt8) : List UInt8 := s.dropWhile fun c => decide (c = spaceChar)

/-- `atoi_hex`. -/
def atoiHex (s : List UInt8) : UInt32 :=
  let s := skipSpaces s
  let s := if s[0]? = some zeroChar ∧ (s[1]? = some 120 ∨ s[1]? = some 88) then s.drop 2 else s
  atoiHexLoop 0 s

/-- The first loop of `print_int`: what it puts into `buf`. -/
def intDigits (n : Int32) : List UInt8 :=
  if 0 < n then (charInt zeroChar + n % 10).toInt8.toUInt8 :: intDigits (n / 10) else []
termination_by n.toInt.toNat
decreasing_by
  rename_i h
  have hpos : 0 < n.toInt := Int32.lt_iff_toInt_lt.1 h
  rw [Int32.toInt_div_of_ne_right n 10 (by decide), show (10 : Int32).toInt = 10 from rfl,
    Int.tdiv_eq_ediv_of_nonneg hpos.le]
  omega

/-- The characters that `print_int` passes to `putchar`. -/
def printIntChars (n : Int32) : List UInt8 :=
  if n = 0 then [zeroChar]
  else if n < 0 then minusChar :: (intDigits (-n)).reverse
  else (intDigits n).reverse

/-- `digits[d]` in `print_hex`. -/
def hexDigit (d : UInt32) : UInt8 := (literal "0123456789ABCDEF").getD d.toNat 0

/-- The characters that `print_hex` passes to `putchar`. -/
def printHexChars (n : UInt32) : List UInt8 :=
  literal "0x" ++ [28, 24, 20, 16, 12, 8, 4, 0].map fun i : UInt32 => hexDigit ((n >>> i) &&& 0xF)

/-! ## Spaces -/

/-- Some spaces. -/
def spaces (k : ℕ) : List UInt8 := List.replicate k spaceChar

/-- The text does not begin with a space. -/
abbrev NoSpace (s : List UInt8) : Prop := StopsAt (fun c => decide (c = spaceChar)) s

theorem skipSpaces_spaces (k : ℕ) {s : List UInt8} (hs : NoSpace s) :
    skipSpaces (spaces k ++ s) = s := by
  apply hs.dropWhile
  intro c hc
  rw [List.eq_of_mem_replicate hc]
  rfl

/-! ## Decimal numbers -/

/-- The value of a digit. -/
def digitValue (c : UInt8) : ℕ := c.toNat - 48

theorem isDigit_iff (c : UInt8) : isDigit c = true ↔ 48 ≤ c.toNat ∧ c.toNat ≤ 57 := by
  have h0 : signed zeroChar = 48 := by decide
  have h9 : signed 57 = 57 := by decide
  have hc : c.toNat < 256 := c.toNat_lt
  rw [isDigit, decide_eq_true_iff, h0, h9]
  unfold signed
  split_ifs <;> omega

theorem isDigit_ofNat {d : ℕ} (hd : d < 10) : isDigit (UInt8.ofNat (48 + d)) = true := by
  rw [isDigit_iff, UInt8.toNat_ofNat_of_lt' (by simp only [UInt8.size]; omega)]
  omega

theorem digitValue_ofNat {d : ℕ} (hd : d < 10) : digitValue (UInt8.ofNat (48 + d)) = d := by
  rw [digitValue, UInt8.toNat_ofNat_of_lt' (by simp only [UInt8.size]; omega)]
  omega

/-- The step of `atoi` is that of reading digits, wrapped to 32 bits. -/
theorem atoi_step (n : ℕ) {c : UInt8} (hc : isDigit c = true) :
    Int32.ofInt n * 10 + (charInt c - charInt zeroChar) = Int32.ofInt ↑(n * 10 + digitValue c) := by
  have hbounds := (isDigit_iff c).1 hc
  have hsigned : signed c = (c.toNat : ℤ) := if_pos (by omega)
  have hdigit : (digitValue c : ℤ) = signed c - signed zeroChar := by
    rw [hsigned, show signed zeroChar = 48 by decide, digitValue]
    omega
  rw [Nat.cast_add, Nat.cast_mul, hdigit, Int32.ofInt_add, Int32.ofInt_mul, Int32.ofInt_sub]
  rfl

/-- A number in decimal, with or without a minus sign. -/
structure Numeral where
  negative : Bool
  digits : List UInt8
  nonempty : digits ≠ []
  areDigits : ∀ c ∈ digits, isDigit c = true

namespace Numeral

/-- The characters. -/
def text (x : Numeral) : List UInt8 := (if x.negative then [minusChar] else []) ++ x.digits

/-- The number denoted. -/
def value (x : Numeral) : ℤ :=
  if x.negative then -(readDigits 10 digitValue x.digits) else readDigits 10 digitValue x.digits

/-- A number of one digit. -/
def ofDigit (negative : Bool) (c : UInt8) (hc : isDigit c = true) : Numeral where
  negative := negative
  digits := [c]
  nonempty := List.cons_ne_nil c []
  areDigits := fun _ hd => (List.mem_singleton.1 hd).symm ▸ hc

/-- A text that begins with a digit does not begin with a minus sign. -/
theorem head?_digits (x : Numeral) (rest : List UInt8) :
    (x.digits ++ rest).head? ≠ some minusChar := by
  obtain ⟨c, ds, hds⟩ := List.exists_cons_of_ne_nil x.nonempty
  have hc := x.areDigits c (hds ▸ List.mem_cons_self)
  rw [hds, List.cons_append, List.head?_cons]
  rintro ⟨⟩
  exact absurd hc (by decide)

end Numeral

/-- **`atoi` reads a number**, wrapped to 32 bits. -/
theorem atoi_text (x : Numeral) {rest : List UInt8} (hrest : StopsAt isDigit rest) :
    atoi (x.text ++ rest) = Int32.ofInt x.value := by
  have hread : atoiLoop (x.digits ++ rest) = Int32.ofInt (readDigits 10 digitValue x.digits) := by
    rw [atoiLoop, hrest.takeWhile x.areDigits]
    exact foldl_readDigits (f := fun n : ℕ => Int32.ofInt n) fun n c hc =>
      atoi_step n (x.areDigits c hc)
  unfold atoi Numeral.text Numeral.value
  by_cases hneg : x.negative = true
  · have hminus : [minusChar] ++ x.digits ++ rest = minusChar :: (x.digits ++ rest) := rfl
    rw [if_pos hneg, if_pos hneg, hminus, List.head?_cons, if_pos rfl, List.tail_cons, hread,
      Int32.mul_comm, ← Int32.neg_eq_neg_one_mul, Int32.ofInt_neg]
  · rw [if_neg hneg, if_neg hneg, List.nil_append, ← hread, if_neg (x.head?_digits rest),
      Int32.mul_one]

/-- Where `atoi` finds a digit there is a number. -/
theorem exists_digits {s : List UInt8} (h : atoiLoop s ≠ 0) (negative : Bool) :
    ∃ (x : Numeral) (rest : List UInt8), x.negative = negative ∧ s = x.digits ++ rest ∧
      StopsAt isDigit rest := by
  have hne : s.takeWhile isDigit ≠ [] := by
    intro hnil
    apply h
    rw [atoiLoop, hnil]
    rfl
  exact ⟨⟨negative, s.takeWhile isDigit, hne, List.all_eq_true.1 List.all_takeWhile⟩,
    s.dropWhile isDigit, rfl, List.takeWhile_append_dropWhile.symm, stopsAt_dropWhile s⟩

/-- **A text that `atoi` does not read as 0** begins with a number. -/
theorem exists_text_of_atoi_ne {s : List UInt8} (h : atoi s ≠ 0) :
    ∃ (x : Numeral) (rest : List UInt8), s = x.text ++ rest ∧ StopsAt isDigit rest := by
  unfold atoi at h
  by_cases hneg : s.head? = some minusChar
  · rw [if_pos hneg] at h
    obtain ⟨x, rest, hx, hs, hrest⟩ :=
      exists_digits (s := s.tail) (fun h0 => h (by rw [h0]; rfl)) true
    refine ⟨x, rest, ?_, hrest⟩
    rw [Numeral.text, if_pos hx, List.append_assoc, ← hs]
    exact (List.cons_head?_tail hneg).symm
  · rw [if_neg hneg] at h
    obtain ⟨x, rest, hx, hs, hrest⟩ := exists_digits (s := s) (fun h0 => h (by rw [h0]; rfl)) false
    refine ⟨x, rest, ?_, hrest⟩
    rw [Numeral.text, if_neg (by simp [hx]), List.nil_append, ← hs]

/-! ## Printing in decimal -/

/-- A digit of `print_int`. -/
theorem digitChar_eq {d : ℕ} (hd : d < 10) :
    (charInt zeroChar + Int32.ofInt d).toInt8.toUInt8 = UInt8.ofNat (48 + d) := by
  revert d
  decide

/-- **The loop of `print_int`** writes the digits from the last one on. -/
theorem intDigits_eq (n : Int32) :
    intDigits n = (Nat.digits 10 n.toInt.toNat).map fun d => UInt8.ofNat (48 + d) := by
  induction n using intDigits.induct with
  | case1 n hpos ih =>
    have hn : 0 < n.toInt := Int32.lt_iff_toInt_lt.1 hpos
    obtain ⟨m, hm⟩ := Int.eq_ofNat_of_zero_le hn.le
    have hdiv : (n / 10).toInt.toNat = m / 10 := by
      rw [Int32.toInt_div_of_ne_right n 10 (by decide), hm]
      rfl
    have hmod : n % 10 = Int32.ofInt ↑(m % 10) := by
      rw [← Int32.toInt_inj, Int32.toInt_mod, hm, Int32.toInt_ofInt_of_le (by omega) (by omega)]
      rfl
    rw [intDigits, if_pos hpos, ih, hdiv, hmod, digitChar_eq (Nat.mod_lt m (by decide)), hm,
      Int.toNat_natCast, Nat.digits_def' (b := 10) (n := m) (by decide) (by omega), List.map_cons]
  | case2 n hpos =>
    have hn : ¬ 0 < n.toInt := fun hn => hpos (Int32.lt_iff_toInt_lt.2 hn)
    rw [intDigits, if_neg hpos, Int.toNat_of_nonpos (not_lt.1 hn)]
    rfl

/-- The digits of a positive number. -/
theorem intDigits_numeral {n : Int32} (hn : 0 < n.toInt) (negative : Bool) :
    ∃ x : Numeral, x.negative = negative ∧ x.digits = (intDigits n).reverse ∧
      readDigits 10 digitValue x.digits = n.toInt := by
  have hlt : ∀ d ∈ Nat.digits 10 n.toInt.toNat, d < 10 := fun d hd =>
    Nat.digits_lt_base (by decide) hd
  refine ⟨⟨negative, (intDigits n).reverse, ?_, ?_⟩, rfl, rfl, ?_⟩
  · rw [intDigits_eq, ne_eq, List.reverse_eq_nil_iff, List.map_eq_nil_iff,
      Nat.digits_eq_nil_iff_eq_zero]
    omega
  · intro c hc
    rw [intDigits_eq, List.mem_reverse] at hc
    obtain ⟨d, hd, rfl⟩ := List.mem_map.1 hc
    exact isDigit_ofNat (hlt d hd)
  · simp only
    rw [intDigits_eq, readDigits_reverse fun d hd => digitValue_ofNat (hlt d hd),
      Nat.ofDigits_digits]
    omega

/-- **What `print_int` prints** is a number in decimal, of that value. -/
theorem printInt_text {n : Int32} (hn : n ≠ Int32.minValue) :
    ∃ x : Numeral, printIntChars n = x.text ∧ x.value = n.toInt := by
  have hne : n.toInt ≠ -2 ^ 31 :=
    fun h => hn (Int32.toInt_inj.1 (h.trans Int32.toInt_minValue.symm))
  have hle := n.le_toInt
  unfold printIntChars Numeral.text Numeral.value
  by_cases h0 : n = 0
  · rw [if_pos h0, h0]
    exact ⟨.ofDigit false zeroChar (by decide), rfl, by decide⟩
  · have hzero : n.toInt ≠ 0 := fun h => h0 (Int32.toInt_inj.1 h)
    rw [if_neg h0]
    by_cases hneg : n < 0
    · have hlt0 : n.toInt < 0 := Int32.lt_iff_toInt_lt.1 hneg
      have hminus : (-n).toInt = -n.toInt := by
        rw [Int32.toInt_neg]
        exact Int.bmod_eq_of_le (by omega) (by omega)
      obtain ⟨x, hx, hdigits, hvalue⟩ := intDigits_numeral (n := -n) (by omega) true
      refine ⟨x, ?_, ?_⟩
      · rw [if_pos hneg, hx, hdigits]
        rfl
      · rw [if_pos hx]
        omega
    · have hge : ¬ n.toInt < 0 := fun h => hneg (Int32.lt_iff_toInt_lt.2 h)
      obtain ⟨x, hx, hdigits, hvalue⟩ := intDigits_numeral (n := n) (by omega) false
      refine ⟨x, ?_, ?_⟩
      · rw [if_neg hneg, hx, hdigits]
        rfl
      · rw [if_neg (by simp [hx])]
        exact hvalue

/-- The least number is its own negation, which leaves no digits to print. -/
theorem printInt_minValue : printIntChars Int32.minValue = [minusChar] := by
  have hneg : -Int32.minValue = Int32.minValue := by decide
  rw [printIntChars, if_neg (by decide), if_pos (by decide), hneg, intDigits, if_neg (by decide)]
  rfl

/-! ## Hexadecimal numbers -/

/-- A hexadecimal digit. -/
def isHexDigit (c : UInt8) : Bool := (hexValue c).isSome

/-- The value of a hexadecimal digit. -/
def hexDigitValue (c : UInt8) : ℕ := ((hexValue c).getD 0).toNat

theorem hexValue_hexDigit {d : ℕ} (hd : d < 16) :
    hexValue (hexDigit (UInt32.ofNat d)) = some (UInt32.ofNat d) := by
  revert d
  decide

theorem hexDigitValue_hexDigit {d : ℕ} (hd : d < 16) :
    hexDigitValue (hexDigit (UInt32.ofNat d)) = d := by
  rw [hexDigitValue, hexValue_hexDigit hd, Option.getD_some]
  exact UInt32.toNat_ofNat_of_lt' (hd.trans (by decide))

/-- The loop of `atoi_hex` over digits. -/
theorem atoiHexLoop_append {s rest : List UInt8} (hs : ∀ c ∈ s, isHexDigit c = true)
    (hrest : StopsAt isHexDigit rest) (n : UInt32) :
    atoiHexLoop n (s ++ rest) = s.foldl (fun n c => n * 16 + (hexValue c).getD 0) n := by
  induction s generalizing n with
  | nil =>
    cases rest with
    | nil => rfl
    | cons c rest =>
      have hnone : hexValue c = none :=
        Option.isNone_iff_eq_none.1 (Option.isSome_eq_false_iff.1 (hrest c rfl))
      rw [List.nil_append, atoiHexLoop, hnone]
      rfl
  | cons c s ih =>
    obtain ⟨d, hd⟩ := Option.isSome_iff_exists.1 (hs c List.mem_cons_self)
    rw [List.cons_append, atoiHexLoop, hd, List.foldl_cons, hd]
    exact ih (fun e he => hs e (List.mem_cons_of_mem c he)) _

/-- The nibbles of a number. -/
theorem toNat_nibble (n i : UInt32) (hi : i.toNat < 32) :
    ((n >>> i) &&& 0xF).toNat = n.toNat / 2 ^ i.toNat % 16 := by
  rw [UInt32.toNat_and, UInt32.toNat_shiftRight, Nat.mod_eq_of_lt hi, Nat.shiftRight_eq_div_pow]
  exact Nat.and_two_pow_sub_one_eq_mod _ 4

/-- **What `print_hex` prints**: the eight hexadecimal digits. -/
theorem printHex_eq (n : UInt32) : printHexChars n = literal "0x" ++
    (fixedDigits 16 8 n.toNat).map fun d => hexDigit (UInt32.ofNat d) := by
  have hdigit (i : UInt32) (hi : i.toNat < 32) :
      hexDigit ((n >>> i) &&& 0xF) = hexDigit (UInt32.ofNat (n.toNat / 2 ^ i.toNat % 16)) := by
    rw [← toNat_nibble n i hi, UInt32.ofNat_toNat]
  have hlast : hexDigit (n &&& 0xF) = hexDigit (UInt32.ofNat (n.toNat % 16)) := by
    simpa using hdigit 0 (by decide)
  simp [printHexChars, fixedDigits, hdigit, hlast, Nat.div_div_eq_div_mul]

/-- **`atoi_hex` reads what `print_hex` prints.** -/
theorem atoiHex_printHex (n : UInt32) (k : ℕ) {rest : List UInt8}
    (hrest : StopsAt isHexDigit rest) :
    atoiHex (List.replicate k spaceChar ++ printHexChars n ++ rest) = n := by
  have hdigits := fixedDigits_lt (b := 16) (by decide) 8 n.toNat
  have hhex : ∀ c ∈ (fixedDigits 16 8 n.toNat).map fun d => hexDigit (UInt32.ofNat d),
      isHexDigit c = true := by
    intro c hc
    obtain ⟨d, hd, rfl⟩ := List.mem_map.1 hc
    rw [isHexDigit, hexValue_hexDigit (hdigits d hd)]
    rfl
  have hstep (m : ℕ) (c : UInt8) :
      UInt32.ofNat m * 16 + (hexValue c).getD 0 = UInt32.ofNat (m * 16 + hexDigitValue c) := by
    rw [UInt32.ofNat_add, UInt32.ofNat_mul, hexDigitValue, UInt32.ofNat_toNat]
    rfl
  have hread : readDigits 16 hexDigitValue ((fixedDigits 16 8 n.toNat).map
      fun d => hexDigit (UInt32.ofNat d)) = n.toNat % 16 ^ 8 :=
    readDigits_fixedDigits (by decide) (fun d hd => hexDigitValue_hexDigit hd) 8 n.toNat
  have hstop : NoSpace (printHexChars n ++ rest) := by
    rw [printHex_eq]
    exact StopsAt.cons (by decide)
  have hskip := skipSpaces_spaces k hstop
  rw [spaces] at hskip
  have h0x : literal "0x" = [zeroChar, 120] := by decide
  rw [List.append_assoc, atoiHex, hskip, printHex_eq, List.append_assoc, h0x]
  calc
    _ = atoiHexLoop 0
        ((fixedDigits 16 8 n.toNat).map (fun d => hexDigit (UInt32.ofNat d)) ++ rest) := rfl
    _ = UInt32.ofNat (n.toNat % 16 ^ 8) := by
      rw [atoiHexLoop_append hhex hrest, ← hread]
      exact foldl_readDigits (f := UInt32.ofNat) fun m c _ => hstep m c
    _ = n := by
      rw [Nat.mod_eq_of_lt (show n.toNat < 16 ^ 8 from n.toNat_lt), UInt32.ofNat_toNat]

/-- **Printed numbers read back.** What `print_int` prints for any `int` but the least is read back
by `atoi`, and what `print_hex` prints for any number by `atoi_hex`, whatever other text follows. -/
theorem printed_numbers_read_back_iff (n : Int32) (rest : List UInt8) (hrest : StopsAt isDigit rest)
    (m : UInt32) (k : ℕ) (rest' : List UInt8) (hrest' : StopsAt isHexDigit rest') :
    (atoi (printIntChars n ++ rest) = n ∧
      atoiHex (List.replicate k spaceChar ++ printHexChars m ++ rest') = m) ↔
        n ≠ Int32.minValue := by
  rw [and_iff_left (atoiHex_printHex m k hrest')]
  constructor
  · rintro hread rfl
    have hnil : ([] ++ rest).takeWhile isDigit = [] :=
      hrest.takeWhile fun c hc => absurd hc List.not_mem_nil
    rw [printInt_minValue, List.singleton_append, atoi, List.head?_cons, if_pos rfl, List.tail_cons,
      atoiLoop, ← List.nil_append rest, hnil] at hread
    exact absurd hread (by decide)
  · intro hn
    obtain ⟨x, htext, hvalue⟩ := printInt_text hn
    rw [htext, atoi_text x hrest, hvalue, Int32.ofInt_toInt]

theorem printed_numbers_read_back_end : (atoi (printIntChars (-25) ++ []) = -25 ∧
    atoiHex (List.replicate 2 spaceChar ++ printHexChars 0xC0000010 ++ [spaceChar]) = 0xC0000010) ↔
      (-25 : Int32) ≠ Int32.minValue :=
  printed_numbers_read_back_iff (-25) [] .nil 0xC0000010 2 [spaceChar] (.cons (by decide))

/-- The least `int` is printed as a minus sign, which reads as 0. -/
theorem minValue_not_read_back :
    atoi (printIntChars Int32.minValue) = 0 ∧ atoi (printIntChars Int32.minValue) ≠
      Int32.minValue := by
  rw [printInt_minValue]
  decide

end JarvisOS
