import JarvisOS.Console.Calc
import JarvisOS.Kernel.Gates
import JarvisOS.Physical.Mmu
import JarvisOS.Physical.Reserved

/-!
# Exceptions

`isr_handler` reports an exception and halts, with two cases of its own: a breakpoint returns, and a
page fault is explained first. Together with the table of gates, the stubs and the page tables this
says what the console shows after each exception of the processor: its number and name, the address
and the error code that the processor pushed (`exceptions_reported`), and, for a page fault, an
address that no call of `paging_map` has mapped.
-/

namespace JarvisOS

open Foundations

/-! ## `isr_handler` -/

/-- `exception_names` -/
def exceptionNames : List String :=
  ["divide by zero", "debug", "non-maskable interrupt", "breakpoint",
    "overflow", "bound range exceeded", "invalid opcode", "device not available",
    "double fault", "coprocessor segment overrun", "invalid TSS",
    "segment not present", "stack-segment fault", "general protection fault",
    "page fault", "reserved", "x87 floating-point", "alignment check",
    "machine check", "SIMD floating-point", "virtualization", "control protection",
    "reserved", "reserved", "reserved", "reserved", "reserved", "reserved",
    "reserved", "reserved", "reserved", "reserved"]

/-- `page_fault_handler`, with the address that `CR2` holds. -/
def pageFaultHandler (cr2 errCode : ℕ) : List Output :=
  [.str "\n*** PAGE FAULT ***\n", .str "  address : ", .hex cr2, .str "\n  cause   : ",
    .str (if errCode &&& 0x1 ≠ 0 then "protection violation" else "page not present"), .str ", ",
    .str (if errCode &&& 0x2 ≠ 0 then "on write" else "on read"), .str ", ",
    .str (if errCode &&& 0x4 ≠ 0 then "user mode" else "kernel mode")] ++
  (if errCode &&& 0x10 ≠ 0 then [.str ", instruction fetch"] else []) ++
  [.str "\n  code    : ", .hex errCode, .str "\n"]

/-- What `isr_handler` prints when it is called with the structure `r`. -/
def isrReport (cr2 : ℕ) (r : Registers) : List Output :=
  let intNo := r.intNo.toNat
  if intNo = 3 then [.str "[breakpoint at ", .hex r.eip.toNat, .str "]\n"]
  else (if intNo = 14 then pageFaultHandler cr2 r.errCode.toNat else []) ++
    [.str "\n*** CPU EXCEPTION ", .int intNo, .str ": ",
      .str (if intNo < 32 then exceptionNames.getD intNo "" else "unknown"), .str " ***\n  eip: ",
      .hex r.eip.toNat, .str "  err: ", .hex r.errCode.toNat, .str "\nSystem halted.\n"]

/-- `cmd_fault`: what it prints, and the address to which it then writes. -/
def cmdFault : List Output × ℕ :=
  ([.str "Touching unmapped memory at 0xDEADB000 on purpose...\n"], 0xDEADB000)

/-! ## The processor -/

/-- The accesses of the kernel. -/
inductive Access
  | read
  | write

/-- The error code of a page fault of the kernel at a page that is not present. -/
def Access.faultCode : Access → Word
  | read => 0x0
  | write => 0x2

/-! ## What the console shows -/

/-- The end of every report. -/
def haltLines (v : ℕ) (name : String) (eip err : Word) : List Output :=
  [.str "\n*** CPU EXCEPTION ", .int v, .str ": ", .str name, .str " ***\n  eip: ", .hex eip.toNat,
    .str "  err: ", .hex err.toNat, .str "\nSystem halted.\n"]

/-- The explanation of a page fault of the kernel's. -/
def pageFaultLines (addr : ℕ) (a : Access) : List Output :=
  [.str "\n*** PAGE FAULT ***\n", .str "  address : ", .hex addr, .str "\n  cause   : ",
    .str "page not present", .str ", ",
      .str (match a with | .read => "on read" | .write => "on write"),
    .str ", ", .str "kernel mode", .str "\n  code    : ", .hex a.faultCode.toNat, .str "\n"]

theorem pageFaultHandler_faultCode (addr : ℕ) (a : Access) :
    pageFaultHandler addr a.faultCode.toNat = pageFaultLines addr a := by
  cases a <;> rfl

section Report

variable {r : Registers} {v : ℕ} {error : Option Word} {m : SegMachine}

/-- The structure of a breakpoint. -/
theorem isrReport_breakpoint (h : Describes r v error m) (hno : r.intNo.toNat = v) (hv : v = 3)
    (cr2 : ℕ) :
    isrReport cr2 r = [.str "[breakpoint at ", .hex m.eip.toNat, .str "]\n"] := by
  rw [isrReport, if_pos (hno.trans hv), h.eip]

/-- The structure of any other exception. -/
theorem isrReport_halts (h : Describes r v error m) (hno : r.intNo.toNat = v) (hv : v ≠ 3)
    (hlt : v < 32) (cr2 : ℕ) :
    isrReport cr2 r = (if v = 14 then pageFaultHandler cr2 (error.getD 0).toNat else []) ++
      haltLines v (exceptionNames.getD v "") m.eip (error.getD 0) := by
  rw [isrReport, hno, if_neg hv, if_pos hlt, h.eip, h.errCode]
  rfl

theorem isrHandler_intNo (hno : r.intNo.toNat = v) :
    isrHandler ⟨r.intNo⟩ = if v = 3 then .returns else .halts := by
  subst hno
  have hiff : (⟨r.intNo⟩ : UInt32) = 3 ↔ r.intNo.toNat = 3 := UInt32.toNat_inj.symm
  rw [isrHandler]
  exact if_congr hiff rfl rfl

end Report

/-- An access goes to the frame that was mapped last, or faults if there is none. -/
theorem MmuReach.answers {q : MmuSystem} (h : MmuReach q) {v : ℕ} (hv : v < 2 ^ 32)
    {answer : Option ℕ}
    (ha : q.Answers v answer) :
    answer = (q.pages.pages (v / pageSize)).map fun p => p / pageSize * pageSize + v %
      pageSize := by
  obtain ⟨tabs, hpages, hl, hfresh⟩ := h.inv
  have hlook := hpages.refines.mmuLook_eq hl (pageNumber v)
  rw [pageNumber_val hv] at hlook
  cases ha with
  | hit hmem =>
    have hsome := hfresh.eq_some hmem
    rw [hlook] at hsome
    obtain ⟨p, hp, rfl⟩ := Option.map_eq_some_iff.1 hsome
    rw [hp]
    rfl
  | walk =>
    rw [hlook, Option.map_map]
    rfl

theorem MmuReach.answers_none {q : MmuSystem} (h : MmuReach q) {v : ℕ} (hv : v < 2 ^ 32)
    (hnone : q.pages.pages (v / pageSize) = none) : q.Answers v none := by
  have hwalk : q.Answers v ((q.paging.mmuLook (pageNumber v)).map (· + v % pageSize)) := .walk
  have hanswer := h.answers hv hwalk
  rw [hnone] at hanswer
  rwa [hanswer] at hwalk

/-- **Exceptions are reported.** Whatever memory held before `idt_install` and `isr_install`, with
the table still in memory, and in every state of the page tables and the translation cache reached
after `paging_init`: an access of the kernel goes to the frame that the calls of `paging_map` and
`paging_unmap` have left for its page. If they have left none, the processor's fault leads to
`isr_handler`, which prints the address, the kind of access, the address of the instruction that
made it and the error code, and halts. Every other exception but 17 and 21 leads there as well: a
breakpoint is printed and returns, and the others halt under their number, their name and the error
code, which is 0 where the processor pushes none. -/
theorem exceptions_reported (K : IsrImage) {idt idtp : ℕ} (hidt : idt < 2 ^ 32)
    (hp : idtp + 6 ≤ idt ∨ idt + 8 * idtEntries ≤ idtp) {m₀ : Mem} {m : SegMachine}
    (hm : TableKept K.addr idt idtp m₀ m.mem) {q : MmuSystem} (hq : MmuReach q) :
    (∀ v < 2 ^ 32, ∀ access answer, q.Answers v answer →
      (∀ p, answer = some p → ∃ f, q.pages.pages (v / pageSize) = some f ∧
        p = f / pageSize * pageSize + v % pageSize) ∧
      (answer = none → q.pages.pages (v / pageSize) = none ∧
        ∃ t h n, m.deliver (idtInstall idt idtp m₀).1 14 (some access.faultCode) = some t ∧
          t.run K.code n = some h ∧ h.eip = K.isrHandler ∧
          isrReport v (Registers.at h.toMachine (h.word (h.esp + 4))) =
            pageFaultLines v access ++ haltLines 14 "page fault" m.eip access.faultCode ∧
          isrHandler ⟨(Registers.at h.toMachine (h.word (h.esp + 4))).intNo⟩ = .halts)) ∧
    ∀ v < 32, v ≠ 14 → v ≠ 17 → v ≠ 21 → ∀ e cr2,
      ∃ t h n, m.deliver (idtInstall idt idtp m₀).1 v (cpuError v e) = some t ∧
        t.run K.code n = some h ∧ h.eip = K.isrHandler ∧
        isrReport cr2 (Registers.at h.toMachine (h.word (h.esp + 4))) =
          (if v = 3 then [.str "[breakpoint at ", .hex m.eip.toNat, .str "]\n"]
          else haltLines v (exceptionNames.getD v "") m.eip ((cpuError v e).getD 0)) ∧
        isrHandler ⟨(Registers.at h.toMachine (h.word (h.esp + 4))).intNo⟩ =
          if v = 3 then .returns else .halts := by
  constructor
  · intro v hv access answer ha
    have hanswer := hq.answers hv ha
    refine ⟨fun p hp => ?_, fun hnone => ⟨?_, ?_⟩⟩
    · obtain ⟨f, hf, rfl⟩ := Option.map_eq_some_iff.1 (hanswer.symm.trans hp)
      exact ⟨f, hf, rfl⟩
    · exact Option.map_eq_none_iff.1 (hanswer.symm.trans hnone)
    · obtain ⟨t, h, n, hdeliver, hrun, heip, hd, hno⟩ :=
        deliver_handler K hidt hp hm (v := 14) (by decide)
        (by decide) access.faultCode
      refine ⟨t, h, n, hdeliver, hrun, heip, ?_, isrHandler_intNo hno⟩
      rw [isrReport_halts hd hno (by decide) (by decide),
        if_pos (show (14 : Fin 48).val = 14 from rfl),
        ← pageFaultHandler_faultCode]
      rfl
  · intro v hlt h14 h17 h21 e cr2
    obtain ⟨t, h, n, hdeliver, hrun, heip, hd, hno⟩ :=
      deliver_handler K hidt hp hm (v := ⟨v, by omega⟩) h17 h21 e
    refine ⟨t, h, n, hdeliver, hrun, heip.trans (stubOf_isr hlt K), ?_, isrHandler_intNo hno⟩
    by_cases h3 : v = 3
    · rw [if_pos h3]
      exact isrReport_breakpoint hd hno h3 cr2
    · rw [if_neg h3, isrReport_halts hd hno h3 hlt, if_neg h14]
      rfl

/-- After `paging_init` on the small machine, `fault` is reported. -/
theorem exceptions_reported_fault : ∃ q : MmuSystem, ∃ m t h : SegMachine, ∃ n,
    MmuReach q ∧ q.Answers cmdFault.2 none ∧
    m.deliver (idtInstall 0x10000 0x20000 fun _ => 0).1 14 (some 2) = some t ∧
    t.run sampleImage.code n = some h ∧ h.eip = 0x4000 ∧
    isrReport cmdFault.2 (Registers.at h.toMachine (h.word (h.esp + 4))) =
      pageFaultLines 0xDEADB000 .write ++ haltLines 14 "page fault" 0x5000 2 := by
  have hv : cmdFault.2 < 2 ^ 32 := by decide
  have hreach :
    MmuReach ⟨⟨smallPaging, identityPages (smallPaging.identityEnd / pageSize), ∅⟩, ∅⟩ :=
    .start ⟨⟨smallImage, smallMap, fun _ => 0#32, smallFrames, fun _ => 0,
      FrameReach.init _ _ _, rfl, smallPaging_enabled, rfl, by simp [smallFrames]⟩, rfl⟩
  have hnone : identityPages (smallPaging.identityEnd / pageSize) (cmdFault.2 / pageSize) =
    none := by
    decide +kernel
  have hfault := hreach.answers_none hv hnone
  obtain ⟨-, t, h, n, hdeliver, hrun, heip, hreport, -⟩ :=
    ((@exceptions_reported sampleImage 0x10000 0x20000
    (by decide) (by decide) (fun _ => 0)
    { sampleMachine with
      mem := isrInstall sampleImage.addr 0x10000 (idtInstall 0x10000 0x20000 fun _ => 0).2 }
    (fun _ _ _ => rfl) _ hreach).1 _ hv .write none hfault).2 rfl
  exact ⟨_, _, t, h, n, hreach, hfault, hdeliver, hrun, heip, hreport⟩

end JarvisOS
