import Mathlib.Data.List.Induction
import Mathlib.Data.Nat.Digits.Defs
import Mathlib.Tactic.Common
import Mathlib.Tactic.Ring

/-!
# Digits in text

A number is read from text by taking the longest run of digits (`StopsAt` says that the run ends
there) and multiplying by the base before each one (`readDigits`). It is written either from its
last digit on, as in `Nat.digits`, or with a fixed number of digits (`fixedDigits`). A machine reads
in its own arithmetic: `foldl_readDigits` carries `readDigits` over to it.
-/

namespace Foundations

section Runs

variable {α : Type*} {p : α → Bool} {run rest : List α}

/-- The text does not begin with what `p` accepts. -/
def StopsAt (p : α → Bool) (rest : List α) : Prop := ∀ c ∈ rest.head?, p c = false

theorem StopsAt.nil : StopsAt p [] := fun _ hc => absurd hc (Option.not_mem_none _)

theorem StopsAt.cons {c : α} (h : p c = false) : StopsAt p (c :: rest) := by
  intro d hd
  rwa [← Option.mem_some.1 hd]

/-- The longest run ends where the text stops. -/
theorem StopsAt.takeWhile (h : StopsAt p rest) (hrun : ∀ c ∈ run, p c = true) :
    (run ++ rest).takeWhile p = run := by
  rw [List.takeWhile_append_of_pos hrun]
  cases rest with
  | nil => exact List.append_nil run
  | cons c rest => rw [List.takeWhile_cons_of_neg (by simp [h c rfl]), List.append_nil]

theorem StopsAt.dropWhile (h : StopsAt p rest) (hrun : ∀ c ∈ run, p c = true) :
    (run ++ rest).dropWhile p = rest := by
  rw [List.dropWhile_append_of_pos hrun]
  cases rest with
  | nil => rfl
  | cons c rest => exact List.dropWhile_cons_of_neg (by simp [h c rfl])

/-- What is left after the longest run. -/
theorem stopsAt_dropWhile (s : List α) : StopsAt p (s.dropWhile p) := by
  intro c hc
  have h := List.head?_dropWhile_not p s
  rw [Option.mem_def.1 hc] at h
  exact h

end Runs

section Reading

variable {α R : Type*} {b : ℕ} {digit : α → ℕ}

/-- The number that digits denote, the first one the most significant. -/
def readDigits (b : ℕ) (digit : α → ℕ) (s : List α) : ℕ := s.foldl (fun n c => n * b + digit c) 0

theorem readDigits_concat (s : List α) (c : α) :
    readDigits b digit (s ++ [c]) = readDigits b digit s * b + digit c := by
  rw [readDigits, List.foldl_append]
  rfl

/-- **Reading in another arithmetic**, whose step is that of the naturals under `f`. -/
theorem foldl_readDigits {f : ℕ → R} {step : R → α → R} {s : List α}
    (hstep : ∀ n, ∀ c ∈ s, step (f n) c = f (n * b + digit c)) :
    s.foldl step (f 0) = f (readDigits b digit s) := by
  induction s using List.reverseRecOn with
  | nil => rfl
  | append_singleton s c ih =>
    have hlast : ∀ n, step (f n) c = f (n * b + digit c) :=
      fun n => hstep n c (List.mem_append_right s (List.mem_singleton_self c))
    rw [List.foldl_append, ih fun n d hd => hstep n d (List.mem_append_left _ hd),
      readDigits_concat, List.foldl_cons, List.foldl_nil, hlast]

/-- **Digits written from the last one on** read back. -/
theorem readDigits_reverse {char : ℕ → α} {ds : List ℕ} (hchar : ∀ d ∈ ds, digit (char d) = d) :
    readDigits b digit (ds.map char).reverse = Nat.ofDigits b ds := by
  induction ds with
  | nil => rfl
  | cons d ds ih =>
    rw [List.map_cons, List.reverse_cons, readDigits_concat, Nat.ofDigits_cons,
      hchar d List.mem_cons_self, ih fun e he => hchar e (List.mem_cons_of_mem d he)]
    ring

/-- The last `k` digits, the first one the most significant. -/
def fixedDigits (b : ℕ) : ℕ → ℕ → List ℕ
  | 0, _ => []
  | k + 1, n => fixedDigits b k (n / b) ++ [n % b]

theorem fixedDigits_lt (hb : 0 < b) (k n : ℕ) : ∀ d ∈ fixedDigits b k n, d < b := by
  induction k generalizing n with
  | zero => exact fun d hd => absurd hd List.not_mem_nil
  | succ k ih =>
    intro d hd
    rcases List.mem_append.1 hd with hd | hd
    · exact ih _ d hd
    · rw [List.mem_singleton.1 hd]
      exact Nat.mod_lt n hb

/-- **A fixed number of digits** reads back. -/
theorem readDigits_fixedDigits {char : ℕ → α} (hb : 0 < b) (hchar : ∀ d < b, digit (char d) = d)
    (k n : ℕ) : readDigits b digit ((fixedDigits b k n).map char) = n % b ^ k := by
  induction k generalizing n with
  | zero => rw [pow_zero, Nat.mod_one]; rfl
  | succ k ih =>
    rw [fixedDigits, List.map_append, List.map_singleton, readDigits_concat, ih,
      hchar _ (Nat.mod_lt n hb), pow_succ', Nat.mod_mul]
    ring

end Reading

end Foundations
