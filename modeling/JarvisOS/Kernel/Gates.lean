import JarvisOS.Foundations.GateTable
import JarvisOS.Kernel.Interrupts
import JarvisOS.Kernel.Irq
import Mathlib.Data.List.Basic

/-!
# From a request to its handler

`idt.c` and `isr_install` over the bytes of memory: 256 gates, of which the first 48 lead to the
stubs of `isr.asm` and the others are not present. Whatever memory held before, the processor finds
there the stub of each vector (`deliver_installed`). With the answers of the interrupt controllers
this leads every request to `irq_handler`, with the vector of its line in the structure that it is
called with (`requests_reach_handler`).
-/

namespace JarvisOS

open Foundations

/-! ## `idt.c` -/

/-- `idt_set_gate`, for the table at `idt`. -/
def idtSetGate (idt num base selector flags : ℕ) (m : Mem) : Mem :=
  let entry := idt + 8 * (num % 2 ^ 8)
  let m := m.write16 entry (base &&& 0xFFFF)
  let m := m.write16 (entry + 6) ((base >>> 16) &&& 0xFFFF)
  let m := m.write16 (entry + 2) selector
  let m := m.write8 (entry + 4) 0
  m.write8 (entry + 5) (.ofNat flags)

/-- The loop of `idt_install`, for one entry. -/
def clearEntry (idt i : ℕ) (m : Mem) : Mem :=
  let entry := idt + 8 * i
  let m := m.write16 entry 0
  let m := m.write16 (entry + 6) 0
  let m := m.write16 (entry + 2) 0
  let m := m.write8 (entry + 4) 0
  m.write8 (entry + 5) 0

/-- `IDT_ENTRIES` -/
abbrev idtEntries : ℕ := 256

/-- `idt_install`, with `idt` and `idtp` at these addresses; the register is what `idt_load` gives
the processor. -/
def idtInstall (idt idtp : ℕ) (m : Mem) : TableRegister × Mem :=
  let m := m.write16 idtp (8 * idtEntries - 1)
  let m := m.write32 (idtp + 2) idt
  let m := (List.range idtEntries).foldl (fun m i => clearEntry idt i m) m
  (loadTable m idtp, m)

/-- The gates of `isr_install`. -/
def isrInstall (addr : Label → Word) (idt : ℕ) (m : Mem) : Mem :=
  (List.range 48).foldl (fun m v => idtSetGate idt v (addr (gate v)).toNat 0x08 0x8E m) m

/-! ## The bytes of the table -/

theorem leBytes_two_and (v : ℕ) : leBytes 2 (v &&& 0xFFFF) = leBytes 2 v := by
  have hmask : v &&& 0xFFFF = v % 2 ^ 16 := and_mask_eq_mod v 16
  rw [hmask]
  simp only [leBytes, List.map_inj_left, List.mem_range]
  intro i hi
  refine UInt8.toNat_inj.1 ?_
  rw [UInt8.toNat_ofNat', UInt8.toNat_ofNat']
  interval_cases i <;> omega

/-- **`idt_set_gate`** stores the bytes of a gate. -/
theorem idtSetGate_eq (idt base selector flags : ℕ) {num : ℕ} (hnum : num < 2 ^ 8) (m : Mem) :
    idtSetGate idt num base selector flags m = m.writeBytes (idt + 8 * num)
      (gateBytes base selector flags) := by
  simp only [idtSetGate, Nat.mod_eq_of_lt hnum, Mem.write16, Mem.write8_eq_writeBytes,
    leBytes_two_and, Nat.shiftRight_eq_div_pow]
  generalize idt + 8 * num = e
  rw [Mem.writeBytes_comm (a := e + 6) (b := e + 2) (by simp),
    Mem.writeBytes_comm (a := e + 6) (b := e + 4) (by simp),
    Mem.writeBytes_comm (a := e + 6) (b := e + 5) (by simp), Mem.writeBytes_writeBytes (by simp),
    Mem.writeBytes_writeBytes (by simp), Mem.writeBytes_writeBytes (by simp),
      Mem.writeBytes_writeBytes (by simp)]
  rfl

theorem clearEntry_eq (idt i : ℕ) (m : Mem) : clearEntry idt i m = m.writeBytes (idt + 8 * i)
    (gateBytes 0 0 0) := by
  simp only [clearEntry, Mem.write16, Mem.write8_eq_writeBytes]
  generalize idt + 8 * i = e
  rw [Mem.writeBytes_comm (a := e + 6) (b := e + 2) (by simp),
    Mem.writeBytes_comm (a := e + 6) (b := e + 4) (by simp),
    Mem.writeBytes_comm (a := e + 6) (b := e + 5) (by simp), Mem.writeBytes_writeBytes (by simp),
    Mem.writeBytes_writeBytes (by simp), Mem.writeBytes_writeBytes (by simp),
      Mem.writeBytes_writeBytes (by simp)]
  rfl

/-- Entries stored one after the other. -/
theorem foldl_entries (idt : ℕ) (bytes : ℕ → List UInt8) (hlen : ∀ i, (bytes i).length = 8) (n : ℕ)
    (m : Mem) :
    (∀ i < n, ((List.range n).foldl (fun m i => m.writeBytes (idt + 8 * i) (bytes i)) m).Bytes
      (idt + 8 * i) (bytes i)) ∧
      ∀ x, x < idt ∨ idt + 8 * n ≤ x →
        (List.range n).foldl (fun m i => m.writeBytes (idt + 8 * i) (bytes i)) m x = m x := by
  induction n with
  | zero => exact ⟨fun i hi => absurd hi (Nat.not_lt_zero i), fun x _ => rfl⟩
  | succ n ih =>
    obtain ⟨hbytes, hkeep⟩ := ih
    rw [List.range_succ, List.foldl_append]
    refine ⟨fun i hi => ?_, fun x hx => ?_⟩
    · rcases Nat.lt_succ_iff_lt_or_eq.1 hi with hi | rfl
      · refine (hbytes i hi).congr fun x h1 h2 => Mem.writeBytes_apply_of_disjoint ?_
        rw [hlen] at h2
        omega
      · exact Mem.bytes_writeBytes
    · have hlen := hlen n
      exact (Mem.writeBytes_apply_of_disjoint (by omega)).trans (hkeep x (by omega))

theorem isrInstall_eq (addr : Label → Word) (idt : ℕ) (m : Mem) : isrInstall addr idt m =
    (List.range 48).foldl
      (fun m v => m.writeBytes (idt + 8 * v) (gateBytes (addr (gate v)).toNat 0x08 0x8E)) m := by
  refine List.foldl_ext _ _ _ fun m v hv => idtSetGate_eq _ _ _ _ ?_ m
  have := List.mem_range.1 hv
  omega

theorem length_gateBytes (offset selector flags : ℕ) :
    (gateBytes offset selector flags).length = 8 := by
  simp [gateBytes]

section Installed

variable {idt idtp : ℕ}

theorem idtInstall_snd (idt idtp : ℕ) (m : Mem) : (idtInstall idt idtp m).2 =
    (List.range idtEntries).foldl (fun m i => m.writeBytes (idt + 8 * i) (gateBytes 0 0 0))
      ((m.write16 idtp (8 * idtEntries - 1)).write32 (idtp + 2) idt) := by
  simp only [idtInstall, clearEntry_eq]

/-- What `idt_install` leaves in memory. -/
theorem idtInstall_table (m : Mem) :
    (∀ i < idtEntries, (idtInstall idt idtp m).2.Bytes (idt + 8 * i) (gateBytes 0 0 0)) ∧
      ∀ x, x < idt ∨ idt + 8 * idtEntries ≤ x → (idtInstall idt idtp m).2 x =
        (m.write16 idtp (8 * idtEntries - 1)).write32 (idtp + 2) idt x := by
  rw [idtInstall_snd]
  exact foldl_entries idt _ (fun _ => length_gateBytes 0 0 0) idtEntries _

theorem isrInstall_table (addr : Label → Word) (m : Mem) :
    (∀ v < 48, (isrInstall addr idt m).Bytes (idt + 8 * v)
      (gateBytes (addr (gate v)).toNat 0x08 0x8E)) ∧
      ∀ x, x < idt ∨ idt + 8 * 48 ≤ x → isrInstall addr idt m x = m x := by
  rw [isrInstall_eq]
  exact foldl_entries idt (fun v => gateBytes (addr (gate v)).toNat 0x08 0x8E)
    (fun _ => length_gateBytes _ _ _) 48 m

/-- `idt_load` gives the processor the address and the limit of the table. -/
theorem idtInstall_fst (hidt : idt < 2 ^ 32) (hp : idtp + 6 ≤ idt ∨ idt + 8 * idtEntries ≤ idtp)
    (m : Mem) :
    (idtInstall idt idtp m).1 = ⟨8 * idtEntries - 1, idt⟩ := by
  have hkeep := (@idtInstall_table idt idtp m).2
  have hlimit : (idtInstall idt idtp m).2.Bytes idtp (leBytes 2 (8 * idtEntries - 1)) := by
    have hhere : (m.write16 idtp (8 * idtEntries - 1)).Bytes idtp
      (leBytes 2 (8 * idtEntries - 1)) :=
      Mem.bytes_writeBytes
    refine hhere.congr fun x h1 h2 => (hkeep x ?_).trans ?_
    · simp only [length_leBytes] at h2
      omega
    · exact Mem.write32_apply_of_disjoint _ _ (by simp only [length_leBytes] at h2; omega)
  have hbase : (idtInstall idt idtp m).2.read32 (idtp + 2) = idt := by
    refine (Mem.read32_congr fun x h1 h2 => hkeep x (by omega)).trans ?_
    rw [Mem.read32_write32_same, u32_of_lt hidt]
  have hload : (idtInstall idt idtp m).1 = loadTable (idtInstall idt idtp m).2
    idtp := by simp only [idtInstall]
  rw [hload, loadTable, hbase, Mem.read16_of_bytes hlimit, Nat.mod_eq_of_lt (by decide)]

/-- The gates in memory. -/
theorem gateAt_installed (addr : Label → Word) (m : Mem) {v : ℕ} (hv : v < idtEntries) :
    gateAt (isrInstall addr idt (idtInstall idt idtp m).2) (idt + 8 * v) =
      if v < 48 then some ⟨addr (gate v), 0x08⟩ else none := by
  have hclear := (@idtInstall_table idt idtp m).1 v hv
  obtain ⟨hset, hkeep⟩ := @isrInstall_table idt addr (idtInstall idt idtp m).2
  by_cases h48 : v < 48
  · rw [gateAt_of_bytes (hset v h48), if_pos (by decide), if_pos h48, BitVec.ofNat_toNat,
      BitVec.setWidth_eq]
    rfl
  · rw [gateAt_of_bytes (hclear.congr fun x h1 h2 => hkeep x (by omega)), if_neg (by decide),
      if_neg h48]

/-- The table is in memory as `isr_install` has left it. -/
def TableKept (addr : Label → Word) (idt idtp : ℕ) (m₀ m : Mem) : Prop :=
  ∀ x, idt ≤ x → x < idt + 8 * idtEntries → m x = isrInstall addr idt (idtInstall idt idtp m₀).2 x

/-- **The processor finds the stubs.** -/
theorem deliver_installed {addr : Label → Word} (hidt : idt < 2 ^ 32)
    (hp : idtp + 6 ≤ idt ∨ idt + 8 * idtEntries ≤ idtp) {m₀ : Mem} {m : SegMachine}
    (hm : TableKept addr idt idtp m₀ m.mem) (v : ℕ) (e : Option Word) :
    m.deliver (idtInstall idt idtp m₀).1 v e =
      if v < 48 then some (m.interrupt 0x08 (addr (gate v)) e) else none := by
  have h256 : idtEntries = 256 := rfl
  rw [SegMachine.deliver, idtInstall_fst hidt hp]
  by_cases hv : v < idtEntries
  · have hgate : gateAt m.mem (idt + 8 * v) =
        gateAt (isrInstall addr idt (idtInstall idt idtp m₀).2) (idt + 8 * v) := by
      have hlow := Mem.read32_congr (a := idt + 8 * v) fun x h1 h2 => hm x (by omega) (by omega)
      have hhigh := Mem.read32_congr (a := idt + 8 * v + 4) fun x h1 h2 => hm x (by omega)
        (by omega)
      unfold gateAt
      rw [hlow, hhigh]
    rw [if_pos (by simp only; omega), hgate, gateAt_installed addr m₀ hv]
    split_ifs <;> rfl
  · rw [if_neg (by simp only; omega), if_neg (by omega)]

end Installed

/-! ## Requests -/

theorem stubOf_isr {v : Fin 48} (h : v.val < 32) (K : IsrImage) :
    K.handler (stubOf v) = K.isrHandler := by
  have hstub : ∀ v : Fin 48, v.val < 32 → stubOf v = .isrErr v ∨ stubOf v = .isrNoErr v := by decide
  rcases hstub v h with e | e <;> rw [e] <;> rfl

theorem stubOf_irq {v : Fin 48} (h : 32 ≤ v.val) : stubOf v = .irq (v - 32) v := by
  revert v
  decide

/-- **Every vector but 17 and 21** leads to its handler, called with a structure that describes the
interrupted code. -/
theorem handlerCall_describes (K : IsrImage) {v : Fin 48} (h17 : v.val ≠ 17) (h21 : v.val ≠ 21)
    (e : Word)
    (m : SegMachine) : ∃ h, handlerCall K v e m = some h ∧ h.eip = K.handler (stubOf v) ∧
      Describes (Registers.at h.toMachine (h.word (h.esp + 4))) v (cpuError v e) m := by
  obtain ⟨h, ds, g, hcall, heip, -, hg, -, -, hptr, hstack⟩ := handlerCall_spec K v e m
  have hr : h.esp + 4 + 4 = h.esp + 8 := by bv_omega
  rw [hr, stubOf_words] at hstack
  refine ⟨h, hcall, heip, ?_⟩
  rw [hptr]
  by_cases hv : v.val = 8 ∨ 10 ≤ v.val ∧ v.val ≤ 14
  · have herror : cpuError v e = some e := if_pos (by omega)
    rw [if_pos hv, herror] at hstack
    rw [herror]
    exact describes_of_stacked rfl hg hstack
  · have herror : cpuError v e = none := if_neg (by omega)
    rw [if_neg hv, herror] at hstack
    rw [herror]
    exact describes_of_stacked rfl hg hstack

/-- **From the processor to the handler**, through the table. -/
theorem deliver_handler (K : IsrImage) {idt idtp : ℕ} (hidt : idt < 2 ^ 32)
    (hp : idtp + 6 ≤ idt ∨ idt + 8 * idtEntries ≤ idtp) {m₀ : Mem} {m : SegMachine}
    (hm : TableKept K.addr idt idtp m₀ m.mem) {v : Fin 48} (h17 : v.val ≠ 17) (h21 : v.val ≠ 21)
      (e : Word) :
    ∃ t h n, m.deliver (idtInstall idt idtp m₀).1 v (cpuError v e) = some t ∧
      t.run K.code n = some h ∧
      h.eip = K.handler (stubOf v) ∧
      Describes (Registers.at h.toMachine (h.word (h.esp + 4))) v (cpuError v e) m ∧
      (Registers.at h.toMachine (h.word (h.esp + 4))).intNo.toNat = v := by
  obtain ⟨h, hcall, heip, hd⟩ := handlerCall_describes K h17 h21 e m
  refine ⟨_, h, _, ?_, hcall, heip, hd, ?_⟩
  · rw [deliver_installed hidt hp hm, if_pos v.isLt]
  · rw [hd.intNo, BitVec.toNat_ofNat]
    exact Nat.mod_eq_of_lt (by omega)

/-- The vectors of the answers, whatever is in service. -/
theorem answer_vector {p q : Pair} {drop : Fin 8 → Bool} {a : Answer} (h : p.Placed 32 40)
    (hack : p.acknowledge drop = some (a, q)) : 32 ≤ a.vector ∧ a.vector < 48 ∧
      ∀ k, a.line = some k → a.vector = k.vector 32 40 := by
  obtain ⟨-, hvector, hspurious⟩ := h.acknowledge hack
  cases hline : a.line with
  | none =>
    rw [hline] at hvector
    rcases hspurious hline with e | e <;> exact ⟨by omega, by omega, hvector⟩
  | some k =>
    rw [hline] at hvector
    have hk := hvector k rfl
    have hrange : 32 ≤ k.vector 32 40 ∧ k.vector 32 40 < 48 := by
      cases k <;> simp only [PairLine.vector] <;> omega
    exact ⟨hk ▸ hrange.1, hk ▸ hrange.2, hvector⟩

/-- **Requests reach their handler.** Whatever memory and the controllers held before `idt_install`,
`isr_install` and `pic_remap`, interrupts in service included: in every state reached with
interrupts on, and on every processor with the table still in memory, the answer of the controllers
leads through the table to `irq_handler`, called with a structure that describes the interrupted
code and holds the vector; if the answer is for a line, this is the vector of the line. The vectors
from 48 on lead nowhere. -/
theorem requests_reach_handler (K : IsrImage) {idt idtp : ℕ} (hidt : idt < 2 ^ 32)
    (hp : idtp + 6 ≤ idt ∨ idt + 8 * idtEntries ≤ idtp) (m₀ : Mem) :
    (∀ m : SegMachine, TableKept K.addr idt idtp m₀ m.mem → ∀ v e, 48 ≤ v →
      m.deliver (idtInstall idt idtp m₀).1 v e = none) ∧
    ∀ s : IrqState, IrqReach IrqBooted s → s.interruptFlag → ∀ drop a q, s.pics.acknowledge drop =
      some (a, q) →
      ∀ m : SegMachine, TableKept K.addr idt idtp m₀ m.mem →
        ∃ t h n, m.deliver (idtInstall idt idtp m₀).1 a.vector none = some t ∧
          t.run K.code n = some h ∧
          h.eip = K.irqHandler ∧ Describes (Registers.at h.toMachine (h.word (h.esp + 4))) a.vector
            none m ∧
          (Registers.at h.toMachine (h.word (h.esp + 4))).intNo.toNat = a.vector ∧
          ∀ k, a.line = some k → a.vector = k.vector 32 40 := by
  refine ⟨fun m hm v e hv => ?_, fun s hs hf drop a q hack m hm => ?_⟩
  · rw [deliver_installed hidt hp hm, if_neg (not_lt.2 hv)]
  · have hplaced := hs.placed.placed
    rw [hs.placed.flag hf] at hplaced
    obtain ⟨hlo, hhi, hline⟩ := answer_vector hplaced hack
    obtain ⟨t, h, n, hdeliver, hrun, heip, hd, hint⟩ :=
      deliver_handler K hidt hp hm (v := ⟨a.vector, hhi⟩)
      (by simp only; omega) (by simp only; omega) 0
    have hno : cpuError a.vector 0 = none := if_neg (by omega)
    simp only [hno] at hdeliver hd
    rw [stubOf_irq hlo] at heip
    exact ⟨t, h, n, hdeliver, hrun, heip, hd, hint, hline⟩

/-- The serial request calls `irq_handler` with vector 36. -/
theorem requests_reach_handler_serial : ∃ m t h : SegMachine, ∃ n,
    m.deliver (idtInstall 0x10000 0x20000 fun _ => 0).1 36 none = some t ∧
      t.run sampleImage.code n = some h ∧
      h.eip = 0x4100 ∧ (Registers.at h.toMachine (h.word (h.esp + 4))).intNo.toNat = 36 := by
  have hreach : IrqReach IrqBooted (requestedIrq (.irq 4)) :=
    (irqReach_requested (by decide)).mono fun _ h => h.toIrqBooted
  obtain ⟨q, hack⟩ : ∃ q, (requestedIrq (.irq 4)).pics.acknowledge Controller.noLine = some
    (⟨36, some (.irq 4)⟩, q) :=
    ⟨_, rfl⟩
  obtain ⟨t, h, n, hdeliver, hrun, heip, -, hint, -⟩ := (@requests_reach_handler sampleImage 0x10000
    0x20000 (by decide) (by decide) fun _ => 0).2 _ hreach rfl _ _ q hack
    { sampleMachine with
      mem := isrInstall sampleImage.addr 0x10000 (idtInstall 0x10000 0x20000 fun _ => 0).2 }
    fun _ _ _ => rfl
  exact ⟨_, t, h, n, hdeliver, hrun, heip, hint⟩

end JarvisOS
