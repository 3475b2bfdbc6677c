import JarvisOS.Foundations.ByteMemory
import Mathlib.Logic.Function.Basic

/-!
# A 32-bit stack machine

Registers, flags, an instruction pointer and a byte memory, with the x86 instructions that save and
restore a context on the stack. The code is a function from addresses to instructions, apart from
the memory. Two facts are what programs are verified with: a block of instructions runs straight
through (`run_block`), and words pushed lie below the old stack pointer, the last one first
(`pushes_spec`).
-/

namespace Foundations

/-- A machine word. -/
abbrev Word := BitVec 32

/-- The general registers. -/
inductive Reg
  | eax | ecx | edx | ebx | esp | ebp | esi | edi
  deriving DecidableEq

/-- The flags that privileged code saves and restores:
`CF PF AF ZF SF TF IF DF OF IOPL NT AC ID`. -/
def flagMask : Word := 0x247FD5

/-- `EFLAGS` in a kernel: bit 1 is set, and the bits that `popfd` does not restore are clear. -/
def Flags := { w : Word // w &&& ~~~flagMask = 2 }

namespace Flags

/-- What `popfd` makes of a word. -/
def ofWord (w : Word) : Flags :=
  ⟨(w &&& flagMask) ||| 2, by
    have hclear : ~~~flagMask &&& flagMask = 0#32 := by decide
    rw [BitVec.and_comm, BitVec.and_or_distrib_left, BitVec.and_comm w, ← BitVec.and_assoc, hclear,
      BitVec.zero_and, BitVec.zero_or]
    decide⟩

/-- Flags that were saved are restored. -/
@[simp] theorem ofWord_val (f : Flags) : ofWord f.val = f := by
  obtain ⟨w, hw⟩ := f
  apply Subtype.ext
  calc (w &&& flagMask) ||| 2 = (w &&& flagMask) ||| (w &&& ~~~flagMask) := by rw [hw]
    _ = w &&& (flagMask ||| ~~~flagMask) := (BitVec.and_or_distrib_left ..).symm
    _ = w := by rw [BitVec.or_not_self, BitVec.and_allOnes]

/-- `IF`: interrupts are let in. -/
def interrupts (f : Flags) : Bool := f.val.getLsbD 9

end Flags

/-- The state of the processor. -/
@[ext] structure Cpu where
  regs : Reg → Word
  eflags : Flags
  eip : Word

/-- The processor and its memory. -/
@[ext] structure Machine extends Cpu where
  mem : Mem

/-- The instructions. -/
inductive Instr
  | pusha
  | pushfd
  /-- `mov dst, [base + disp]`. -/
  | load (dst base : Reg) (disp : Word)
  /-- `mov [base], src`. -/
  | store (base src : Reg)
  /-- `mov dst, src`. -/
  | mov (dst src : Reg)
  | popfd
  | popa
  | ret
  deriving DecidableEq

/-- The length of an instruction's code. -/
def Instr.size : Instr → Word
  | load .. => 4
  | store .. => 2
  | mov .. => 2
  | _ => 1

namespace Machine

/-- The stack pointer. -/
abbrev esp (m : Machine) : Word := m.regs .esp

/-- The word at an address. -/
def word (m : Machine) (a : Word) : Word := BitVec.ofNat 32 (m.mem.read32 a.toNat)

/-- Set a register. -/
def set (m : Machine) (r : Reg) (w : Word) : Machine :=
  { m with regs := Function.update m.regs r w }

/-- Push a word. -/
def push (m : Machine) (w : Word) : Machine :=
  { m.set .esp (m.esp - 4) with mem := m.mem.write32 (m.esp - 4).toNat w.toNat }

/-- Pop a word into a register; a word popped for the stack pointer is skipped. -/
def pop (m : Machine) (r : Reg) : Machine :=
  if r = .esp then m.set .esp (m.esp + 4) else (m.set .esp (m.esp + 4)).set r (m.word m.esp)

/-- The registers in the order in which `pusha` pushes them. -/
def pushaOrder : List Reg := [.eax, .ecx, .edx, .ebx, .esp, .ebp, .esi, .edi]

/-- The effect of an instruction, up to the instruction pointer that follows it. -/
def effect (m : Machine) : Instr → Machine
  | .pusha => (pushaOrder.map m.regs).foldl push m
  | .pushfd => m.push m.eflags.val
  | .load dst base disp => m.set dst (m.word (m.regs base + disp))
  | .store base src => { m with mem := m.mem.write32 (m.regs base).toNat (m.regs src).toNat }
  | .mov dst src => m.set dst (m.regs src)
  | .popfd => { m.set .esp (m.esp + 4) with eflags := Flags.ofWord (m.word m.esp) }
  | .popa => pushaOrder.reverse.foldl pop m
  | .ret => m.set .esp (m.esp + 4)

/-- Execute an instruction. -/
def exec (m : Machine) (i : Instr) : Machine :=
  { m.effect i with eip := if i = .ret then m.word m.esp else m.eip + i.size }

/-- Fetch an instruction and execute it. -/
def step (code : Word → Option Instr) (m : Machine) : Option Machine :=
  (code m.eip).map m.exec

/-- A number of steps. -/
def run (code : Word → Option Instr) : ℕ → Machine → Option Machine
  | 0, m => some m
  | n + 1, m => (m.step code).bind (run code n)

end Machine

/-! ## Blocks -/

/-- The instructions stand one after the other from `a` on. -/
def CodeAt (code : Word → Option Instr) (a : Word) : List Instr → Prop
  | [] => True
  | i :: is => code a = some i ∧ CodeAt code (a + i.size) is

/-- Only the last instruction of the block may leave it. -/
def Straight (is : List Instr) : Prop := .ret ∉ is.dropLast

instance (is : List Instr) : Decidable (Straight is) := inferInstanceAs (Decidable (_ ∉ _))

/-- **A block runs straight through.** -/
theorem run_block {code : Word → Option Instr} {is : List Instr} (hs : Straight is) {m : Machine}
    (h : CodeAt code m.eip is) : m.run code is.length = some (is.foldl Machine.exec m) := by
  induction is generalizing m with
  | nil => rfl
  | cons i is ih =>
    have hstep : m.step code = some (m.exec i) := by rw [Machine.step, h.1, Option.map_some]
    rw [List.length_cons, Machine.run, hstep, Option.bind_some, List.foldl_cons]
    cases is with
    | nil => rfl
    | cons j is =>
      rw [Straight, List.dropLast_cons_cons, List.mem_cons, not_or] at hs
      apply ih hs.2
      have hnext : (m.exec i).eip = m.eip + i.size := if_neg (Ne.symm hs.1)
      rw [hnext]
      exact h.2

/-! ## Words in memory -/

namespace Mem

/-- The words stand one after the other from `a` on. -/
def WordsAt (m : Mem) (a : ℕ) : List Word → Prop
  | [] => True
  | w :: ws => m.read32 a = w.toNat ∧ WordsAt m (a + 4) ws

theorem WordsAt.congr {m m' : Mem} {a : ℕ} {ws : List Word} (h : m.WordsAt a ws)
    (hm : ∀ x, a ≤ x → x < a + 4 * ws.length → m' x = m x) : m'.WordsAt a ws := by
  induction ws generalizing a with
  | nil => trivial
  | cons w ws ih =>
    rw [List.length_cons] at hm
    refine ⟨?_, ih h.2 fun x h1 h2 => hm x (by omega) (by omega)⟩
    rw [read32_congr fun x h1 h2 => hm x h1 (by omega)]
    exact h.1

/-- The words before and after a point. -/
theorem wordsAt_append {m : Mem} {a : ℕ} (ws us : List Word) :
    m.WordsAt a (ws ++ us) ↔ m.WordsAt a ws ∧ m.WordsAt (a + 4 * ws.length) us := by
  induction ws generalizing a with
  | nil => exact ⟨fun h => ⟨trivial, h⟩, And.right⟩
  | cons w ws ih =>
    rw [List.cons_append, WordsAt, WordsAt, ih, List.length_cons, and_assoc,
      show a + 4 + 4 * ws.length = a + 4 * (ws.length + 1) by omega]

/-- Push a word on a stack in memory, given by its pointer. -/
def pushWord (p : ℕ × Mem) (w : Word) : ℕ × Mem :=
  (p.1 - 4, p.2.write32 (p.1 - 4) w.toNat)

/-- **Words pushed** lie below the old stack pointer, the last one first; nothing else changes. -/
theorem pushes_spec (ws : List Word) {p : ℕ} (m : Mem) (h : 4 * ws.length ≤ p) :
    (ws.foldl pushWord (p, m)).1 = p - 4 * ws.length ∧
      (ws.foldl pushWord (p, m)).2.WordsAt (p - 4 * ws.length) ws.reverse ∧
      ∀ x, x < p - 4 * ws.length ∨ p ≤ x → (ws.foldl pushWord (p, m)).2 x = m x := by
  induction ws generalizing p m with
  | nil => exact ⟨rfl, trivial, fun _ _ => rfl⟩
  | cons w ws ih =>
    rw [List.length_cons] at h ⊢
    obtain ⟨hp, hw, hx⟩ := ih (p := p - 4) (m.write32 (p - 4) w.toNat) (by omega)
    rw [List.foldl_cons, pushWord, show p - 4 * (ws.length + 1) = p - 4 - 4 * ws.length by omega]
    refine ⟨hp, ?_, ?_⟩
    · rw [List.reverse_cons, wordsAt_append, List.length_reverse]
      refine ⟨hw, ?_, trivial⟩
      rw [show p - 4 - 4 * ws.length + 4 * ws.length = p - 4 by omega,
        read32_congr fun x h1 h2 => hx x (Or.inr h1), read32_write32_same, u32_of_lt w.isLt]
    · intro x hout
      rw [hx x (by omega)]
      exact write32_apply_of_disjoint m _ (by omega)

end Mem

namespace Machine

variable {m : Machine} {w : Word}

/-- A word that is known as a number. -/
theorem word_eq {a : Word} (h : m.mem.read32 a.toNat = w.toNat) : m.word a = w := by
  rw [word, h, BitVec.ofNat_toNat, BitVec.setWidth_eq]

/-- Pushing with the registers is pushing in memory. -/
theorem foldl_push (ws : List Word) (h : 4 * ws.length ≤ m.esp.toNat) :
    ws.foldl push m =
      { m.set .esp (BitVec.ofNat 32 (m.esp.toNat - 4 * ws.length)) with
        mem := (ws.foldl Mem.pushWord (m.esp.toNat, m.mem)).2 } := by
  induction ws generalizing m with
  | nil =>
    simp [set]
  | cons w ws ih =>
    rw [List.length_cons] at h
    have hsub : (m.esp - 4).toNat = m.esp.toNat - 4 := by
      bv_omega
    have hesp : (m.push w).esp = m.esp - 4 := Function.update_self Reg.esp _ m.regs
    rw [List.foldl_cons, ih (by rw [hesp, hsub]; omega), List.foldl_cons, hesp, hsub,
      List.length_cons, show m.esp.toNat - 4 - 4 * ws.length = m.esp.toNat - 4 *
        (ws.length + 1) by omega]
    simp only [push, set, Mem.pushWord, Function.update_idem, hsub]

/-- A word popped goes to its register. -/
theorem pop_eq (r : Reg) (h : m.word m.esp = w) :
    m.pop r = { m with
      regs := fun q => if q = .esp then m.esp + 4 else if q = r then w else m.regs q } := by
  unfold pop set
  rw [h]
  by_cases hr : r = .esp
  · rw [if_pos hr]
    congr 2
    funext q
    rw [Function.update_apply, hr]
    split_ifs <;> rfl
  · rw [if_neg hr]
    congr 2
    funext q
    rw [Function.update_apply]
    by_cases hq : q = r
    · rw [if_pos hq, if_pos hq, if_neg (hq ▸ hr)]
    · rw [if_neg hq, if_neg hq]
      exact Function.update_apply m.regs ..

/-- The words stand one after the other from `a` on, with addresses that wrap around. -/
def Stacked (m : Machine) (a : Word) : List Word → Prop
  | [] => True
  | w :: ws => m.word a = w ∧ Stacked m (a + 4) ws

/-- The address of the word after `k` more. -/
theorem add_four_add (a : Word) (k : ℕ) :
    a + 4 + BitVec.ofNat 32 (4 * k) = a + BitVec.ofNat 32 (4 * (k + 1)) := by
  rw [BitVec.add_assoc]
  congr 1
  bv_omega

theorem stacked_append {a : Word} {ws us : List Word} : m.Stacked a (ws ++ us) ↔
    m.Stacked a ws ∧ m.Stacked (a + BitVec.ofNat 32 (4 * ws.length)) us := by
  induction ws generalizing a with
  | nil => simp [Stacked]
  | cons w ws ih =>
    rw [List.cons_append, Stacked, Stacked, ih, add_four_add, List.length_cons, and_assoc]

/-- Words that stand in memory without wrapping around. -/
theorem stacked_of_wordsAt {a : Word} {ws : List Word} (hfit : a.toNat + 4 * ws.length < 2 ^ 32)
    (h : m.mem.WordsAt a.toNat ws) : m.Stacked a ws := by
  induction ws generalizing a with
  | nil => trivial
  | cons w ws ih =>
    rw [List.length_cons] at hfit
    have hadd : (a + 4).toNat = a.toNat + 4 := by bv_omega
    refine ⟨word_eq h.1, ih (by omega) ?_⟩
    rw [hadd]
    exact h.2

theorem Stacked.congr {t : Machine} {a : Word} {ws : List Word} (h : m.Stacked a ws)
    (ht : t.mem = m.mem) : t.Stacked a ws := by
  induction ws generalizing a with
  | nil => trivial
  | cons w ws ih =>
    refine ⟨?_, ih h.2⟩
    rw [word, ht]
    exact h.1

/-- Words that read the same. -/
theorem Stacked.of_words {t : Machine} {a : Word} {ws : List Word} (h : m.Stacked a ws)
    (ht : ∀ k < ws.length, t.word (a + BitVec.ofNat 32 (4 * k)) = m.word
      (a + BitVec.ofNat 32 (4 * k))) :
    t.Stacked a ws := by
  induction ws generalizing a with
  | nil => trivial
  | cons w ws ih =>
    rw [List.length_cons] at ht
    have hfirst := ht 0 (Nat.succ_pos _)
    simp only [Nat.mul_zero, BitVec.add_zero] at hfirst
    refine ⟨hfirst.trans h.1, ih h.2 ?_⟩
    intro k hk
    have hnext := ht (k + 1) (by omega)
    rwa [← add_four_add] at hnext

/-- **Words popped** go to their registers, and the stack pointer goes past them. -/
theorem foldl_pop (rs : List Reg) (f : Reg → Word) (h : m.Stacked m.esp (rs.map f)) :
    rs.foldl pop m =
      { m with
        regs := fun q => if q = .esp then m.esp + BitVec.ofNat 32 (4 * rs.length)
          else if q ∈ rs then f q else m.regs q } := by
  induction rs generalizing m with
  | nil =>
    have hregs : (fun q => if q = .esp then m.esp else m.regs q) = m.regs := by
      funext q
      split_ifs with hq
      · rw [hq]
      · rfl
    simp [hregs]
  | cons r rs ih =>
    have hesp : (m.pop r).esp = m.esp + 4 := by rw [pop_eq r h.1]; rfl
    have hmem : (m.pop r).mem = m.mem := by rw [pop_eq r h.1]
    have hrest : (m.pop r).Stacked (m.pop r).esp (rs.map f) := by
      rw [hesp]
      exact Stacked.congr h.2 hmem
    rw [List.foldl_cons, ih hrest, hesp, pop_eq r h.1]
    congr 2
    funext q
    by_cases hq : q = .esp
    · rw [if_pos hq, if_pos hq, add_four_add, List.length_cons]
    · simp only [if_neg hq, List.mem_cons]
      by_cases hr : q ∈ rs
      · rw [if_pos hr, if_pos (Or.inr hr)]
      · by_cases hqr : q = r
        · rw [if_neg hr, if_pos hqr, if_pos (Or.inl hqr), hqr]
        · rw [if_neg hr, if_neg hqr, if_neg (not_or.2 ⟨hqr, hr⟩)]

end Machine

/-! ## Saved contexts -/

namespace Cpu

/-- The words of a saved context, from the saved stack pointer up: what `popfd`, `popa` and `ret`
take. `skipped` is the stack pointer that `pusha` saves and `popa` skips. -/
def frame (c : Cpu) (skipped : Word) : List Word :=
  [c.eflags.val, c.regs .edi, c.regs .esi, c.regs .ebp, skipped, c.regs .ebx, c.regs .edx,
    c.regs .ecx, c.regs .eax, c.eip]

/-- The caller of a routine after the routine has returned to `ret` and changed nothing. -/
def returned (c : Cpu) (ret : Word) : Cpu :=
  { c with regs := Function.update c.regs .esp (c.regs .esp + 4), eip := ret }

theorem frame_eq (c : Cpu) (skipped : Word) :
    c.frame skipped = c.eflags.val ::
      (Machine.pushaOrder.reverse.map (Function.update c.regs .esp skipped) ++ [c.eip]) := rfl

end Cpu

namespace Machine

variable {m : Machine}

theorem toNat_esp_sub (hroom : 36 ≤ m.esp.toNat) : (m.esp - 36).toNat = m.esp.toNat - 36 := by
  bv_omega

/-- **Saving a context** leaves its frame on the stack, under the return address. -/
theorem save_spec (hroom : 36 ≤ m.esp.toNat) : ∃ mem : Mem,
    (m.exec .pusha).exec .pushfd =
      { m.set .esp (m.esp - 36) with
        eip := m.eip + 2
        mem := mem } ∧
    mem.WordsAt (m.esp - 36).toNat ((m.toCpu.returned (m.word m.esp)).frame m.esp) ∧
    ∀ x, x < (m.esp - 36).toNat ∨ m.esp.toNat ≤ x → mem x = m.mem x := by
  obtain ⟨ws, hws⟩ : ∃ ws, ws = pushaOrder.map m.regs ++ [m.eflags.val] := ⟨_, rfl⟩
  have hlen : 4 * ws.length = 36 := by rw [hws]; rfl
  obtain ⟨-, hwords, hframe⟩ := Mem.pushes_spec (p := m.esp.toNat) ws m.mem
    (by rw [hlen]; exact hroom)
  have hsub := toNat_esp_sub hroom
  have hpush := foldl_push (m := m) ws (by rw [hlen]; exact hroom)
  rw [hlen] at hwords hframe hpush
  rw [hsub]
  refine ⟨(ws.foldl Mem.pushWord (m.esp.toNat, m.mem)).2, ?_, ?_, hframe⟩
  · have hexec : (m.exec .pusha).exec .pushfd = { ws.foldl push m with eip := m.eip + 1 + 1 } := by
      rw [hws, List.foldl_append]
      rfl
    have hesp : BitVec.ofNat 32 (m.esp.toNat - 36) = m.esp - 36 := by
      rw [← hsub, BitVec.ofNat_toNat, BitVec.setWidth_eq]
    rw [hexec, hpush, hesp, BitVec.add_assoc]
    rfl
  · have hret : (m.toCpu.returned (m.word m.esp)).frame m.esp = ws.reverse ++ [m.word m.esp] := by
      rw [hws]
      rfl
    rw [hret, Mem.wordsAt_append, List.length_reverse, hlen]
    refine ⟨hwords, ?_, trivial⟩
    rw [Nat.sub_add_cancel hroom, Mem.read32_congr fun x h1 h2 => hframe x (Or.inr h1), word,
      BitVec.toNat_ofNat, Nat.mod_eq_of_lt (m.mem.read32_lt _)]

/-- **`popa`** sets every register but the stack pointer. -/
theorem popa_spec (f : Reg → Word) (h : m.Stacked m.esp (pushaOrder.reverse.map f)) :
    m.exec .popa =
      { m with
        regs := Function.update f .esp (m.esp + 32)
        eip := m.eip + 1 } := by
  have hpop := foldl_pop pushaOrder.reverse f h
  have hall : ∀ r, r ∈ pushaOrder.reverse := by
    intro r
    cases r <;> decide
  have hexec : m.exec .popa = { pushaOrder.reverse.foldl pop m with eip := m.eip + 1 } := rfl
  have hregs : (fun r => if r = .esp then m.esp + BitVec.ofNat 32 (4 * pushaOrder.reverse.length)
      else if r ∈ pushaOrder.reverse then f r else m.regs r) =
        Function.update f .esp (m.esp + 32) := by
    funext r
    rw [Function.update_apply, if_pos (hall r)]
    rfl
  rw [hexec, hpop, hregs]

/-- **Taking up a context**: `popfd`, `popa` and `ret` go on from the frame on the stack. -/
theorem restore_spec {c : Cpu} {skipped : Word} (hfit : m.esp.toNat + 40 ≤ 2 ^ 32)
    (h : m.mem.WordsAt m.esp.toNat (c.frame skipped)) :
    ((m.exec .popfd).exec .popa).exec .ret =
      { c with regs := Function.update c.regs .esp (m.esp + 40), mem := m.mem } := by
  rw [Cpu.frame_eq] at h
  obtain ⟨hflags, hrest⟩ := h
  obtain ⟨hregs, hret, -⟩ := (Mem.wordsAt_append _ _).1 hrest
  have hadd : (m.esp + 4).toNat = m.esp.toNat + 4 := by bv_omega
  have hadd' : (m.esp + 4 + 32).toNat = m.esp.toNat + 36 := by bv_omega
  obtain ⟨t, ht⟩ : ∃ t, t = m.exec .popfd := ⟨_, rfl⟩
  have hesp : t.esp = m.esp + 4 := by rw [ht]; rfl
  have hmem : t.mem = m.mem := by rw [ht]; rfl
  have heflags : t.eflags = c.eflags := by
    rw [ht]
    show Flags.ofWord (m.word m.esp) = c.eflags
    rw [word_eq hflags, Flags.ofWord_val]
  have hregs' : t.Stacked t.esp (pushaOrder.reverse.map (Function.update c.regs .esp skipped)) := by
    apply stacked_of_wordsAt
    · rw [hesp, hadd, List.length_map]
      change m.esp.toNat + 4 + 32 < 2 ^ 32
      omega
    · rw [hesp, hadd, hmem]
      exact hregs
  rw [← ht, popa_spec _ hregs', hesp, hmem, heflags, Function.update_idem]
  have hword : BitVec.ofNat 32 (m.mem.read32 (m.esp + 4 + 32).toNat) = c.eip := by
    rw [hadd', ← BitVec.toNat_inj, BitVec.toNat_ofNat, Nat.mod_eq_of_lt (m.mem.read32_lt _)]
    exact hret
  have hexec : ∀ u : Machine, u.exec .ret = { u.set .esp (u.esp + 4) with eip := u.word u.esp } :=
    fun u => rfl
  rw [hexec]
  simp only [set, word, esp, Function.update_self, Function.update_idem, hword]
  rw [BitVec.add_assoc, BitVec.add_assoc]
  rfl

end Machine

end Foundations
