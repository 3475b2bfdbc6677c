import JarvisOS.Console.Numbers

/-!
# The calculator

`cmd_calc` takes each operand with `atoi` and finds the operator with loops of its own over the same
text. The two agree when the text begins with the first operand (`cmdCalc_text`): `atoi` skips no
spaces, the loops do. The quotient of the least `int` by -1 is not an `int`, and the processor
raises the divide exception for it as for a zero divisor; the command guards against the latter only
(`calc_never_traps_iff`).
-/

namespace JarvisOS

open Foundations

/-- A call that prints. -/
inductive PrintCall
  | str (s : String)
  | int (n : Int32)
  deriving DecidableEq

/-- The vector of the divide exception. -/
abbrev divideError : UInt32 := 0

/-- What `isr_handler` comes to. -/
inductive AfterException
  | returns
  | halts
  deriving DecidableEq

/-- `isr_handler`, without what it prints: only a breakpoint returns. -/
def isrHandler (intNo : UInt32) : AfterException := if intNo = 3 then .returns else .halts

/-- The processor's signed division: the quotient, or an exception. -/
def idiv (a b : Int32) : Except UInt32 Int32 :=
  if b = 0 ∨ (a = Int32.minValue ∧ b = -1) then .error divideError else .ok (a / b)

/-- `print_int(result); print("\n");` -/
def printResult (result : Int32) : List PrintCall := [.int result, .str "\n"]

/-- The second half of `cmd_calc`, with what it prints or the exception that it raises. -/
def calcResult (op : UInt8) (a b : Int32) : Except UInt32 (List PrintCall) :=
  if op = 43 then .ok (printResult (a + b))
  else if op = minusChar then .ok (printResult (a - b))
  else if op = 42 then .ok (printResult (a * b))
  else if op = 47 then
    if b = 0 then .ok [.str "error: divide by zero\n"]
    else (idiv a b).map printResult
  else .ok [.str "usage: calc 2 + 3\n"]

/-- `if (*args == '-') args++;` -/
def skipSign (s : List UInt8) : List UInt8 := if s.head? = some minusChar then s.tail else s

/-- `while (*args >= '0' && *args <= '9') args++;` -/
def skipDigits (s : List UInt8) : List UInt8 := s.dropWhile isDigit

/-- `cmd_calc`. -/
def cmdCalc (args : List UInt8) : Except UInt32 (List PrintCall) :=
  let a := atoi args
  let args := skipSpaces args
  let args := skipSign args
  let args := skipDigits args
  let args := skipSpaces args
  let op := args.headD 0
  let args := if op ≠ 0 then args.tail else args
  let args := skipSpaces args
  let b := atoi args
  calcResult op a b

/-- The word and the rest that `shell_execute` makes of a line. -/
def shellWords (line : List UInt8) : List UInt8 × List UInt8 :=
  let cmd := (line.takeWhile fun c => decide (c ≠ spaceChar)).take 31
  (cmd, (line.drop cmd.length).tail)

/-! ## Spaces and numbers -/

theorem exists_spaces (s : List UInt8) : ∃ k, s = spaces k ++ skipSpaces s ∧
    NoSpace (skipSpaces s) := by
  refine ⟨(s.takeWhile fun c => decide (c = spaceChar)).length, ?_, stopsAt_dropWhile s⟩
  have hspaces : ∀ c ∈ s.takeWhile fun c => decide (c = spaceChar), c = spaceChar := fun c hc =>
    of_decide_eq_true (List.all_eq_true.1 List.all_takeWhile c hc)
  rw [spaces, ← List.eq_replicate_length.2 hspaces]
  exact List.takeWhile_append_dropWhile.symm

/-- `atoi` stops at a space. -/
theorem atoi_space (s : List UInt8) : atoi (spaceChar :: s) = 0 := by
  have hdigit : isDigit spaceChar = false := by decide
  have hhead : (spaceChar :: s).head? ≠ some minusChar := by
    rw [List.head?_cons, ne_eq, Option.some_inj]
    decide
  rw [atoi, if_neg hhead, Int32.mul_one, atoiLoop, List.takeWhile_cons_of_neg (by simp [hdigit])]
  rfl

namespace Numeral

variable (x : Numeral) {rest : List UInt8}

/-- A number does not begin with a space. -/
theorem noSpace (rest : List UInt8) : NoSpace (x.text ++ rest) := by
  unfold text
  by_cases hneg : x.negative = true
  · rw [if_pos hneg]
    exact StopsAt.cons (by decide)
  · obtain ⟨c, ds, hds⟩ := List.exists_cons_of_ne_nil x.nonempty
    have hc := (isDigit_iff c).1 (x.areDigits c (hds ▸ List.mem_cons_self))
    rw [if_neg hneg, hds]
    apply StopsAt.cons
    rw [decide_eq_false_iff_not]
    rintro rfl
    exact absurd hc.1 (by decide)

/-- **The loops of `cmd_calc`** skip a number. -/
theorem skip (hrest : StopsAt isDigit rest) : skipDigits (skipSign (x.text ++ rest)) = rest := by
  unfold text skipSign
  by_cases hneg : x.negative = true
  · rw [if_pos hneg]
    exact hrest.dropWhile x.areDigits
  · rw [if_neg hneg, List.nil_append, if_neg (x.head?_digits rest)]
    exact hrest.dropWhile x.areDigits

end Numeral

/-- **`cmd_calc` on a calculation**, with any text behind it. Spaces in front of it make the first
operand 0. -/
theorem cmdCalc_text (x y : Numeral) (k i j : ℕ) {op : UInt8} (hop0 : op ≠ 0)
    (hspace : op ≠ spaceChar) (hdigit : isDigit op = false) {rest : List UInt8}
    (hrest : StopsAt isDigit rest) :
    cmdCalc (spaces k ++ (x.text ++ (spaces i ++ op :: (spaces j ++ (y.text ++ rest))))) =
      calcResult op (if k = 0 then Int32.ofInt x.value else 0) (Int32.ofInt y.value) := by
  have hstop : StopsAt isDigit (spaces i ++ op :: (spaces j ++ (y.text ++ rest))) := by
    cases i with
    | zero => exact .cons hdigit
    | succ i => exact .cons (by decide)
  have ha : atoi (spaces k ++ (x.text ++ (spaces i ++ op :: (spaces j ++ (y.text ++ rest))))) =
      if k = 0 then Int32.ofInt x.value else 0 := by
    cases k with
    | zero => exact atoi_text x hstop
    | succ k => exact atoi_space _
  have hnoop : NoSpace (op :: (spaces j ++ (y.text ++ rest))) := .cons (decide_eq_false hspace)
  unfold cmdCalc
  simp only
  rw [ha, skipSpaces_spaces k (x.noSpace _), x.skip hstop, skipSpaces_spaces i hnoop,
    List.headD_cons, if_pos hop0, List.tail_cons, skipSpaces_spaces j (y.noSpace _),
      atoi_text y hrest]

/-! ## The divide exception -/

/-- The exception comes from the division of the least number by -1 alone. -/
theorem calcResult_eq_error_iff (op : UInt8) (a b : Int32) :
    calcResult op a b = .error divideError ↔ op = 47 ∧ a = Int32.minValue ∧ b = -1 := by
  unfold calcResult
  by_cases hop : op = 47
  · subst hop
    have hb0 : (-1 : Int32) ≠ 0 := by decide
    rw [if_neg (by decide), if_neg (by decide), if_neg (by decide), if_pos rfl, idiv]
    by_cases hb : b = 0
    · rw [if_pos hb]
      simp [hb, hb0.symm]
    · by_cases hmin : a = Int32.minValue ∧ b = -1
      · rw [if_neg hb, if_pos (Or.inr hmin)]
        simp [Except.map, hmin]
      · rw [if_neg hb, if_neg (by simp [hb, hmin])]
        simp [Except.map, hmin]
  · rw [if_neg hop]
    split_ifs <;> simp [hop]

/-- **Where `cmd_calc` raises the exception**, in terms of its text. -/
theorem exists_text_of_trap {args : List UInt8} (h : cmdCalc args = .error divideError) :
    ∃ (x y : Numeral) (i j : ℕ) (rest : List UInt8), StopsAt isDigit rest ∧
      args = x.text ++ (spaces i ++ 47 :: (spaces j ++ (y.text ++ rest))) := by
  obtain ⟨hop, ha, hb⟩ := (calcResult_eq_error_iff _ _ _).1 h
  have ha0 : atoi args ≠ 0 := by
    rw [ha]
    decide
  obtain ⟨x, after, rfl, hafter⟩ := exists_text_of_atoi_ne ha0
  have hskip : skipSpaces (x.text ++ after) = x.text ++ after :=
    skipSpaces_spaces 0 (x.noSpace after)
  rw [hskip, x.skip hafter] at hop hb
  obtain ⟨i, hi, -⟩ := exists_spaces after
  -- the operator is there, so the text goes on
  obtain ⟨c, s, hs⟩ : ∃ c s, skipSpaces after = c :: s := by
    apply List.exists_cons_of_ne_nil
    intro hnil
    rw [hnil] at hop
    exact absurd hop (by decide)
  rw [hs, List.headD_cons] at hop
  subst hop
  rw [hs, List.headD_cons, if_pos (by decide), List.tail_cons] at hb
  obtain ⟨j, hj, -⟩ := exists_spaces s
  have hb0 : atoi (skipSpaces s) ≠ 0 := by
    rw [hb]
    decide
  obtain ⟨y, rest, hy, hrest⟩ := exists_text_of_atoi_ne hb0
  refine ⟨x, y, i, j, rest, hrest, ?_⟩
  rw [← hy, ← hj, ← hs, ← hi]

/-- Numbers that are the same in 32 bits. -/
theorem ofInt_eq_ofInt_iff (a b : ℤ) : Int32.ofInt a = Int32.ofInt b ↔ (2 ^ 32 : ℤ) ∣ a - b := by
  rw [← Int32.toInt_inj, Int32.toInt_ofInt, Int32.toInt_ofInt,
    Int.bmod_eq_bmod_iff_bmod_sub_eq_zero, ← Int.dvd_iff_bmod_eq_zero]
  rfl

/-- **`calc` raises no exception**, unless its text is the quotient of a number that is the least
`int` in 32 bits by one that is -1 in 32 bits. -/
theorem calc_never_traps_iff (args : List UInt8) : cmdCalc args ≠ .error divideError ↔
    ∀ (x y : Numeral) (i j : ℕ) (rest : List UInt8), StopsAt isDigit rest →
      args = x.text ++ (spaces i ++ 47 :: (spaces j ++ (y.text ++ rest))) →
      ¬ ((2 ^ 32 : ℤ) ∣ x.value + 2 ^ 31 ∧ (2 ^ 32 : ℤ) ∣ y.value + 1) := by
  have htrap (x y : Numeral) (i j : ℕ) {rest : List UInt8} (hrest : StopsAt isDigit rest) :
      cmdCalc (x.text ++ (spaces i ++ 47 :: (spaces j ++ (y.text ++ rest)))) = .error divideError ↔
        (2 ^ 32 : ℤ) ∣ x.value + 2 ^ 31 ∧ (2 ^ 32 : ℤ) ∣ y.value + 1 := by
    have hmin : Int32.minValue = Int32.ofInt (-2 ^ 31) := by decide
    have hminus : (-1 : Int32) = Int32.ofInt (-1) := by decide
    have hop : (47 : UInt8) ≠ 0 := by decide
    have h := cmdCalc_text x y 0 i j hop (by decide) (by decide) hrest
    rw [spaces, List.replicate_zero, List.nil_append, if_pos rfl] at h
    rw [h, calcResult_eq_error_iff, hmin, hminus, ofInt_eq_ofInt_iff, ofInt_eq_ofInt_iff,
      sub_neg_eq_add, sub_neg_eq_add, and_iff_right rfl]
  constructor
  · rintro hne x y i j rest hrest rfl hboth
    exact hne ((htrap x y i j hrest).2 hboth)
  · intro hall h
    obtain ⟨x, y, i, j, rest, hrest, rfl⟩ := exists_text_of_trap h
    exact hall x y i j rest hrest rfl ((htrap x y i j hrest).1 h)

/-- A line that halts the machine. -/
theorem calc_traps : shellWords (literal "calc -2147483648 / -1") =
      (literal "calc", literal "-2147483648 / -1") ∧
    cmdCalc (literal "-2147483648 / -1") = .error divideError ∧
    isrHandler divideError = .halts := by
  decide

/-! ## What is computed -/

/-- The operators of `cmd_calc`. -/
inductive CalcOp
  | add
  | sub
  | mul
  | div

namespace CalcOp

/-- The operator's character. -/
def char : CalcOp → UInt8
  | add => 43
  | sub => minusChar
  | mul => 42
  | div => 47

/-- What the operator means. -/
def apply (a b : ℤ) : CalcOp → ℤ
  | add => a + b
  | sub => a - b
  | mul => a * b
  | div => a.tdiv b

/-- A calculation that has a result in 32 bits. -/
def Defined (a b : ℤ) : CalcOp → Prop
  | div => b ≠ 0 ∧ ¬ (a = -2 ^ 31 ∧ b = -1)
  | _ => True

/-- The result in 32 bits is the same with 0 in place of the first operand. -/
def IgnoresFirst (a b : ℤ) : CalcOp → Prop
  | add => a = 0
  | sub => a = 0
  | mul => (2 ^ 32 : ℤ) ∣ a * b
  | div => a.natAbs < b.natAbs

end CalcOp

/-- An `int` value. -/
def InInt (a : ℤ) : Prop := -2 ^ 31 ≤ a ∧ a < 2 ^ 31

instance (a : ℤ) : Decidable (InInt a) := inferInstanceAs (Decidable (_ ∧ _))

/-- Numbers of 32 bits are different in 32 bits. -/
theorem InInt.ofInt_inj {a b : ℤ} (ha : InInt a) (hb : InInt b) :
    Int32.ofInt a = Int32.ofInt b ↔ a = b := by
  refine ⟨fun h => ?_, congrArg _⟩
  rw [← Int32.toInt_ofInt_of_le ha.1 ha.2, h, Int32.toInt_ofInt_of_le hb.1 hb.2]

/-- **The second half of `cmd_calc`** computes the operator. -/
theorem calcResult_apply {a b : ℤ} (ha : InInt a) (hb : InInt b) {o : CalcOp} (ho : o.Defined a b) :
    calcResult o.char (Int32.ofInt a) (Int32.ofInt b) =
      .ok (printResult (Int32.ofInt (o.apply a b))) := by
  cases o with
  | add => rw [CalcOp.apply, Int32.ofInt_add]; rfl
  | sub => rw [CalcOp.apply, Int32.ofInt_sub]; rfl
  | mul => rw [CalcOp.apply, Int32.ofInt_mul]; rfl
  | div =>
    have hmin : Int32.minValue = Int32.ofInt (-2 ^ 31) := by decide
    have hzero : (0 : Int32) = Int32.ofInt 0 := by decide
    have hminus : (-1 : Int32) = Int32.ofInt (-1) := by decide
    have hne : Int32.ofInt b ≠ 0 := by
      rw [hzero, ne_eq, hb.ofInt_inj (by unfold InInt; omega)]
      exact ho.1
    have hboth : ¬ (Int32.ofInt a = Int32.minValue ∧ Int32.ofInt b = -1) := by
      rw [hmin, hminus, ha.ofInt_inj (by unfold InInt; omega),
        hb.ofInt_inj (by unfold InInt; omega)]
      exact ho.2
    rw [CalcOp.apply, Int32.ofInt_tdiv ha.1 (Int.le_sub_one_of_lt ha.2) hb.1
      (Int.le_sub_one_of_lt hb.2), calcResult, CalcOp.char, if_neg (by decide), if_neg (by decide),
      if_neg (by decide), if_pos rfl, if_neg hne, idiv, if_neg (not_or.2 ⟨hne, hboth⟩)]
    rfl

/-- With 0 in place of the first operand. -/
theorem CalcOp.apply_zero_iff {a b : ℤ} (ha : InInt a) {o : CalcOp} (ho : o.Defined a b) :
    Int32.ofInt (o.apply 0 b) = Int32.ofInt (o.apply a b) ↔ o.IgnoresFirst a b := by
  rw [ofInt_eq_ofInt_iff]
  unfold InInt at ha
  cases o with
  | add =>
    simp only [CalcOp.apply, CalcOp.IgnoresFirst]
    omega
  | sub =>
    simp only [CalcOp.apply, CalcOp.IgnoresFirst]
    omega
  | mul =>
    simp only [CalcOp.apply, CalcOp.IgnoresFirst]
    rw [zero_mul, zero_sub, Int.dvd_neg]
  | div =>
    have hquot : (a.tdiv b).natAbs = a.natAbs / b.natAbs := Int.natAbs_tdiv a b
    have hle : a.natAbs / b.natAbs ≤ a.natAbs := Nat.div_le_self _ _
    have hzero : a.natAbs / b.natAbs = 0 ↔ a.natAbs < b.natAbs :=
      Nat.div_eq_zero_iff_lt (Int.natAbs_pos.2 ho.1)
    simp only [CalcOp.apply, CalcOp.IgnoresFirst, Int.zero_tdiv]
    rw [← hzero]
    omega

/-- **`calc` computes what is written**, unless spaces precede the first operand, which is read as 0
then, and the result depends on it. -/
theorem calc_computes_iff (x y : Numeral) (o : CalcOp) (k i j : ℕ) (hx : InInt x.value)
    (hy : InInt y.value) (ho : o.Defined x.value y.value) :
    cmdCalc (spaces k ++ (x.text ++ (spaces i ++ o.char :: (spaces j ++ y.text)))) =
        .ok [.int (Int32.ofInt (o.apply x.value y.value)), .str "\n"] ↔
      k = 0 ∨ o.IgnoresFirst x.value y.value := by
  have hchar : o.char ≠ 0 ∧ o.char ≠ spaceChar ∧ isDigit o.char = false := by
    cases o <;> decide
  have htext := cmdCalc_text x y k i j hchar.1 hchar.2.1 hchar.2.2 StopsAt.nil
  rw [List.append_nil] at htext
  have hzero : (0 : Int32) = Int32.ofInt 0 := by decide
  have hsame (r r' : Int32) : (Except.ok (printResult r) : Except UInt32 (List PrintCall)) =
      .ok (printResult r') ↔ r = r' := by
    simp [printResult]
  rw [htext]
  change _ = Except.ok (printResult _) ↔ _
  by_cases hk : k = 0
  · rw [if_pos hk, calcResult_apply hx hy ho]
    exact iff_of_true rfl (Or.inl hk)
  · have h0 : InInt 0 := by
      unfold InInt
      omega
    have ho0 : o.Defined 0 y.value := by
      cases o with
      | div => exact ⟨ho.1, fun h => absurd h.1 (by decide)⟩
      | _ => trivial
    rw [if_neg hk, hzero, calcResult_apply h0 hy ho0, hsame, CalcOp.apply_zero_iff hx ho]
    exact (or_iff_right hk).symm

/-- `2`. -/
def two : Numeral := .ofDigit false 50 (by decide)

/-- `-3`. -/
def minusThree : Numeral := .ofDigit true 51 (by decide)

theorem calc_computes_sum :
    cmdCalc (spaces 0 ++
      (two.text ++ (spaces 1 ++ CalcOp.add.char :: (spaces 1 ++ minusThree.text)))) =
        .ok [.int (Int32.ofInt (CalcOp.add.apply two.value minusThree.value)), .str "\n"] ↔
      0 = 0 ∨ CalcOp.add.IgnoresFirst two.value minusThree.value :=
  calc_computes_iff two minusThree .add 0 1 1 (by decide) (by decide) trivial

/-- With two spaces after the command, the first operand is read as 0. -/
theorem calc_ignores_first :
    shellWords (literal "calc  2 + 3") = (literal "calc", literal " 2 + 3") ∧
    cmdCalc (literal " 2 + 3") = .ok [.int 3, .str "\n"] ∧
    cmdCalc (literal " 2 + 3") ≠ .ok [.int (2 + 3), .str "\n"] := by
  decide

end JarvisOS
