import JarvisOS.Foundations.Machine

/-!
# Interrupts on the stack machine

The stack machine with its segment registers: how the processor delivers an interrupt within one
privilege level, and the instructions of interrupt routines, `iret` among them. `Holds` says what
words stand on the stack between the stack pointer and a base; pushes and pops are verified with it,
for any stack pointer, as addresses wrap around.
-/

namespace Foundations

/-- A segment selector. -/
abbrev Selector := BitVec 16

/-- The data segment registers. -/
inductive SegReg
  | ds | es | fs | gs
  deriving DecidableEq

namespace Flags

/-- Clear the flags of a mask. -/
def clear (f : Flags) (mask : Word) : Flags := ofWord (f.val &&& ~~~mask)

/-- `CF PF AF ZF SF OF` of a sum, the other flags unchanged. -/
def ofAdd (a b : Word) (f : Flags) : Flags :=
  let bit (c : Bool) (k : ℕ) : Word := if c then 1 <<< k else 0
  let s := a + b
  let parity := ((List.range 8).filter fun i => s.getLsbD i).length % 2 = 0
  ofWord (f.val &&& ~~~0x8D5 ||| bit (s < a) 0 ||| bit parity 2 |||
    bit (s.toNat % 16 < a.toNat % 16) 4 ||| bit (s = 0) 6 ||| bit s.msb 7 |||
    bit (a.msb = b.msb ∧ s.msb ≠ a.msb) 11)

/-- `IF`. -/
def interruptFlag : Word := 0x200

/-- What an interrupt gate clears: `TF`, `IF` and `NT`. -/
def gateMask : Word := 0x4300

end Flags

/-- The machine and its segment registers. -/
@[ext] structure SegMachine extends Machine where
  cs : Selector
  segs : SegReg → Selector

/-- The instructions of interrupt routines. -/
inductive SegInstr
  | cli
  | pushImm (w : Word)
  | push (r : Reg)
  | pop (r : Reg)
  | pusha
  | popa
  /-- `mov r, seg`, with `r` the low half of the register. -/
  | readSeg (r : Reg) (s : SegReg)
  /-- `mov r, imm`, with `r` the low half of the register. -/
  | movLow (r : Reg) (w : BitVec 16)
  /-- `mov seg, r`, with `r` the low half of the register. -/
  | writeSeg (s : SegReg) (r : Reg)
  /-- `add esp, imm`. -/
  | addEsp (w : Word)
  | jmp (target : Word)
  | call (target : Word)
  | iret
  deriving DecidableEq

namespace SegInstr

/-- The length of an instruction's code. -/
def size : SegInstr → Word
  | pushImm _ => 2
  | readSeg .. => 3
  | movLow .. => 4
  | writeSeg .. => 2
  | addEsp _ => 3
  | jmp _ => 5
  | call _ => 5
  | _ => 1

/-- The instruction goes on elsewhere. -/
def Leaves (i : SegInstr) : Prop := (∃ target, i = jmp target) ∨ (∃ target, i = call target) ∨
    i = iret

end SegInstr

/-- Replace the low half of a word. -/
def setLow (w : Word) (v : BitVec 16) : Word := (w >>> 16) <<< 16 ||| v.setWidth 32

@[simp] theorem setWidth_setLow (w : Word) (v : BitVec 16) : (setLow w v).setWidth 16 = v := by
  ext i hi
  simp [setLow]

namespace SegMachine

/-- Change the machine, the segment registers apart. -/
def lift (f : Machine → Machine) (m : SegMachine) : SegMachine :=
  { m with toMachine := f m.toMachine }

/-- The effect of an instruction, up to the instruction pointer. -/
def effect (m : SegMachine) : SegInstr → SegMachine
  | .cli => { m with eflags := m.eflags.clear Flags.interruptFlag }
  | .pushImm w => m.lift fun t => t.push w
  | .push r => m.lift fun t => t.push (t.regs r)
  | .pop r => m.lift fun t => t.pop r
  | .pusha => m.lift fun t => t.effect .pusha
  | .popa => m.lift fun t => t.effect .popa
  | .readSeg r s => m.lift fun t => t.set r (setLow (t.regs r) (m.segs s))
  | .movLow r w => m.lift fun t => t.set r (setLow (t.regs r) w)
  | .writeSeg s r => { m with segs := Function.update m.segs s ((m.regs r).setWidth 16) }
  | .addEsp w =>
    m.lift fun t => { t.set .esp (t.esp + w) with eflags := Flags.ofAdd t.esp w t.eflags }
  | .jmp _ => m
  | .call target => m.lift fun t => t.push (t.eip + (SegInstr.call target).size)
  | .iret =>
    let popped := m.lift fun t =>
      { t.set .esp (t.esp + 12) with eflags := Flags.ofWord (t.word (t.esp + 8)) }
    { popped with cs := (m.word (m.esp + 4)).setWidth 16 }

/-- Where the processor goes on after an instruction. -/
def nextEip (m : SegMachine) : SegInstr → Word
  | .jmp target => target
  | .call target => target
  | .iret => m.word m.esp
  | i => m.eip + i.size

/-- Execute an instruction. -/
def exec (m : SegMachine) (i : SegInstr) : SegMachine := { m.effect i with eip := m.nextEip i }

/-- Fetch an instruction and execute it. -/
def step (code : Word → Option SegInstr) (m : SegMachine) : Option SegMachine :=
  (code m.eip).map m.exec

/-- A number of steps. -/
def run (code : Word → Option SegInstr) : ℕ → SegMachine → Option SegMachine
  | 0, m => some m
  | n + 1, m => (m.step code).bind (run code n)

/-- The processor takes an interrupt at its own privilege level, through an interrupt gate: it
pushes the flags, `cs`, `eip` and, for some vectors, an error code. -/
def interrupt (cs : Selector) (entry : Word) (error : Option Word) (m : SegMachine) : SegMachine :=
  let t := ((m.toMachine.push m.eflags.val).push (m.cs.setWidth 32)).push m.eip
  let t := match error with
    | some e => t.push e
    | none => t
  { toMachine := { t with eip := entry, eflags := m.eflags.clear Flags.gateMask }
    cs := cs
    segs := m.segs }

end SegMachine

/-! ## Blocks -/

namespace SegInstr

/-- The instructions stand one after the other from `a` on. -/
def At (code : Word → Option SegInstr) (a : Word) : List SegInstr → Prop
  | [] => True
  | i :: is => code a = some i ∧ At code (a + i.size) is

instance decidableAt (code : Word → Option SegInstr) : ∀ a is, Decidable (At code a is)
  | _, [] => isTrue trivial
  | a, i :: is =>
    have := decidableAt code (a + i.size) is
    inferInstanceAs (Decidable (_ ∧ _))

/-- The address after the instructions. -/
def after (a : Word) (is : List SegInstr) : Word := is.foldl (fun a i => a + i.size) a

theorem at_append {code : Word → Option SegInstr} {a : Word} {is js : List SegInstr} :
    At code a (is ++ js) ↔ At code a is ∧ At code (after a is) js := by
  induction is generalizing a with
  | nil => simp [At, after]
  | cons i is ih => simp [At, after, ih, and_assoc]

end SegInstr

namespace SegMachine

theorem run_add (code : Word → Option SegInstr) (n k : ℕ) (m : SegMachine) :
    m.run code (n + k) = (m.run code n).bind (run code k) := by
  induction n generalizing m with
  | zero => simp [run]
  | succ n ih =>
    rw [Nat.add_right_comm, run, run, Option.bind_assoc]
    congr 1
    funext t
    exact ih t

/-- **A block runs straight through**, when only its last instruction may leave it. -/
theorem run_block {code : Word → Option SegInstr} {is : List SegInstr}
    (hs : ∀ i ∈ is.dropLast, ¬ i.Leaves) {m : SegMachine} (h : SegInstr.At code m.eip is) :
    m.run code is.length = some (is.foldl exec m) := by
  induction is generalizing m with
  | nil => rfl
  | cons i is ih =>
    have hstep : m.step code = some (m.exec i) := by rw [step, h.1, Option.map_some]
    rw [List.length_cons, run, hstep, Option.bind_some, List.foldl_cons]
    cases is with
    | nil => rfl
    | cons j is =>
      rw [List.dropLast_cons_cons, List.forall_mem_cons] at hs
      apply ih hs.2
      have hnext : (m.exec i).eip = m.eip + i.size := by
        cases i with
        | jmp target => exact absurd (Or.inl ⟨target, rfl⟩) hs.1
        | call target => exact absurd (Or.inr (Or.inl ⟨target, rfl⟩)) hs.1
        | iret => exact absurd (Or.inr (Or.inr rfl)) hs.1
        | _ => rfl
      rw [hnext]
      exact h.2

end SegMachine

/-! ## Words on the stack -/

namespace Machine

/-- Between the stack pointer and `base` the stack holds the words. -/
def Holds (m : Machine) (base : Word) (ws : List Word) : Prop :=
  m.esp + BitVec.ofNat 32 (4 * ws.length) = base ∧ m.Stacked m.esp ws

variable {m : Machine} {base : Word} {ws : List Word}

/-- A word written elsewhere. -/
theorem word_push_of_ne {a w : Word} (h1 : 4 ≤ (a - (m.esp - 4)).toNat)
    (h2 : (a - (m.esp - 4)).toNat + 4 ≤ 2 ^ 32) : (m.push w).word a = m.word a := by
  unfold word push set
  simp only
  rw [Mem.read32_write32_of_disjoint]
  bv_omega

theorem word_push (w : Word) : (m.push w).word (m.esp - 4) = w := by
  unfold word push set
  simp only
  rw [Mem.read32_write32_same, u32_of_lt w.isLt, BitVec.ofNat_toNat, BitVec.setWidth_eq]

@[simp] theorem push_esp (w : Word) : (m.push w).esp = m.esp - 4 :=
  Function.update_self Reg.esp _ m.regs

theorem push_regs (w : Word) {r : Reg} (h : r ≠ .esp) : (m.push w).regs r = m.regs r :=
  Function.update_of_ne h _ m.regs

theorem Stacked.push {a w : Word} {k : ℕ} (ha : a = m.esp + BitVec.ofNat 32 (4 * k))
    (hk : 4 * (k + ws.length) < 2 ^ 32) (h : m.Stacked a ws) : (m.push w).Stacked a ws := by
  induction ws generalizing a k with
  | nil => trivial
  | cons x ws ih =>
    rw [List.length_cons] at hk
    obtain ⟨hx, hrest⟩ := h
    refine ⟨?_, ih (k := k + 1) ?_ (by omega) hrest⟩
    · rw [word_push_of_ne]
      · exact hx
      · bv_omega
      · bv_omega
    · bv_omega

/-- **A word pushed** stands above the words that the stack held. -/
theorem Holds.push (w : Word) (h : m.Holds base ws) (hfit : 4 * (ws.length + 1) < 2 ^ 32) :
    (m.push w).Holds base (w :: ws) := by
  obtain ⟨hbase, hws⟩ := h
  have hback : m.esp - 4 + 4 = m.esp := BitVec.sub_add_cancel ..
  refine ⟨?_, word_push w, ?_⟩
  · rw [push_esp, List.length_cons, ← hbase]
    bv_omega
  · rw [push_esp, hback]
    exact hws.push (k := 0) (by simp) (by omega)

/-- The words on the stack depend on the stack pointer and the memory. -/
theorem Holds.congr {t : Machine} (h : m.Holds base ws) (hesp : t.esp = m.esp)
    (hmem : t.mem = m.mem) :
    t.Holds base ws := by
  unfold Holds
  rw [hesp]
  exact ⟨h.1, h.2.congr hmem⟩

/-- Words pushed one after the other. -/
theorem Holds.pushes (us : List Word) (h : m.Holds base ws)
    (hfit : 4 * (us.length + ws.length) < 2 ^ 32) :
    (us.foldl Machine.push m).Holds base (us.reverse ++ ws) := by
  induction us generalizing m ws with
  | nil => exact h
  | cons u us ih =>
    rw [List.length_cons] at hfit
    rw [List.foldl_cons, List.reverse_cons, List.append_assoc]
    exact ih (h.push u (by omega))
      (by rw [List.cons_append, List.nil_append, List.length_cons]; omega)

/-- Pushes leave the other registers alone. -/
theorem foldl_push_regs (us : List Word) {r : Reg} (h : r ≠ .esp) :
    (us.foldl Machine.push m).regs r = m.regs r := by
  induction us generalizing m with
  | nil => rfl
  | cons u us ih => rw [List.foldl_cons, ih, push_regs u h]

end Machine

namespace SegMachine

variable {m : SegMachine}

/-- **`popa`** leaves the segment registers alone. -/
theorem popa_spec (f : Reg → Word) (h : m.Stacked m.esp (Machine.pushaOrder.reverse.map f)) :
    m.exec .popa =
      { m with
        regs := Function.update f .esp (m.esp + 32)
        eip := m.eip + 1 } := by
  have hexec : m.exec .popa =
    { toMachine := m.toMachine.exec .popa, cs := m.cs, segs := m.segs } := rfl
  rw [hexec, Machine.popa_spec f h]

@[simp] theorem exec_addEsp_regs (w : Word) :
    (m.exec (.addEsp w)).regs = Function.update m.regs .esp (m.esp + w) := rfl

@[simp] theorem exec_addEsp_mem (w : Word) : (m.exec (.addEsp w)).mem = m.mem := rfl

@[simp] theorem exec_addEsp_segs (w : Word) : (m.exec (.addEsp w)).segs = m.segs := rfl

/-- **`iret`** takes `eip`, `cs` and the flags from the stack. -/
theorem iret_spec {eip cs flags : Word} (h : m.Stacked m.esp [eip, cs, flags]) :
    m.exec .iret =
      { m with
        regs := Function.update m.regs .esp (m.esp + 12)
        eflags := Flags.ofWord flags
        eip := eip
        cs := cs.setWidth 16 } := by
  obtain ⟨heip, hcs, hflags, -⟩ := h
  have hadd : m.esp + 4 + 4 = m.esp + 8 := by bv_omega
  rw [hadd] at hflags
  have hexec : m.exec .iret =
      { m with
        regs := Function.update m.regs .esp (m.esp + 12)
        eflags := Flags.ofWord (m.word (m.esp + 8))
        eip := m.word m.esp
        cs := (m.word (m.esp + 4)).setWidth 16 } := rfl
  rw [hexec, heip, hcs, hflags]

end SegMachine

end Foundations
