import JarvisOS.Foundations.Interrupts

/-!
# Interrupt frames

The stubs of `isr.asm` on the machine. An interrupt leaves on the stack what the processor pushes,
what the vector's stub pushes and what the common stub pushes, and the handler is called with a
pointer to it as a `struct registers`. The processor pushes an error code for eight vectors, and the
stubs of six of them are made for that. For every vector but 17 and 21 the structure describes the
interrupted code and the way out restores it: `interrupt_frames`.
-/

namespace JarvisOS

open Foundations

/-- `struct registers`. -/
structure Registers where
  ds : Word
  edi : Word
  esi : Word
  ebp : Word
  esp : Word
  ebx : Word
  edx : Word
  ecx : Word
  eax : Word
  intNo : Word
  errCode : Word
  eip : Word
  cs : Word
  eflags : Word
  useresp : Word
  ss : Word

/-- The structure in memory. -/
def Registers.at (m : Machine) (r : Word) : Registers where
  ds := m.word r
  edi := m.word (r + 4)
  esi := m.word (r + 8)
  ebp := m.word (r + 12)
  esp := m.word (r + 16)
  ebx := m.word (r + 20)
  edx := m.word (r + 24)
  ecx := m.word (r + 28)
  eax := m.word (r + 32)
  intNo := m.word (r + 36)
  errCode := m.word (r + 40)
  eip := m.word (r + 44)
  cs := m.word (r + 48)
  eflags := m.word (r + 52)
  useresp := m.word (r + 56)
  ss := m.word (r + 60)

/-! ## `isr.asm` -/

/-- The labels of the stubs. -/
inductive Label
  | isr (n : ℕ)
  | irq (n : ℕ)
  deriving DecidableEq

/-- The macros that make a stub. -/
inductive Stub
  /-- `ISR_NOERR n` -/
  | isrNoErr (n : ℕ)
  /-- `ISR_ERR n` -/
  | isrErr (n : ℕ)
  /-- `IRQ n, vector` -/
  | irq (n vector : ℕ)
  deriving DecidableEq

namespace Stub

/-- The label that the macro defines. -/
def label : Stub → Label
  | isrNoErr n => .isr n
  | isrErr n => .isr n
  | irq n _ => .irq n

/-- The code that the macro expands to; the arguments are the addresses of the common stubs. -/
def code (isrCommonStub irqCommonStub : Word) : Stub → List SegInstr
  | isrNoErr n => [.cli, .pushImm 0, .pushImm (BitVec.ofNat 32 n), .jmp isrCommonStub]
  | isrErr n => [.cli, .pushImm (BitVec.ofNat 32 n), .jmp isrCommonStub]
  | irq _ vector => [.cli, .pushImm 0, .pushImm (BitVec.ofNat 32 vector), .jmp irqCommonStub]

/-- What the code leaves on the stack, the last word first. -/
def words : Stub → List Word
  | isrNoErr n => [BitVec.ofNat 32 n, 0]
  | isrErr n => [BitVec.ofNat 32 n]
  | irq _ vector => [BitVec.ofNat 32 vector, 0]

end Stub

/-- The table of stubs. -/
def stubTable : List Stub :=
  [.isrNoErr 0, .isrNoErr 1, .isrNoErr 2, .isrNoErr 3, .isrNoErr 4, .isrNoErr 5, .isrNoErr 6,
    .isrNoErr 7, .isrErr 8, .isrNoErr 9, .isrErr 10, .isrErr 11, .isrErr 12, .isrErr 13, .isrErr 14,
    .isrNoErr 15, .isrNoErr 16, .isrNoErr 17, .isrNoErr 18, .isrNoErr 19, .isrNoErr 20,
    .isrNoErr 21, .isrNoErr 22, .isrNoErr 23, .isrNoErr 24, .isrNoErr 25, .isrNoErr 26,
    .isrNoErr 27, .isrNoErr 28, .isrNoErr 29, .isrNoErr 30, .isrNoErr 31, .irq 0 32, .irq 1 33,
    .irq 2 34, .irq 3 35, .irq 4 36, .irq 5 37, .irq 6 38, .irq 7 39, .irq 8 40, .irq 9 41,
    .irq 10 42, .irq 11 43, .irq 12 44, .irq 13 45, .irq 14 46, .irq 15 47]

/-- `isr_install`: the label that gate `v` leads to. -/
def gate (v : ℕ) : Label := if v < 32 then .isr v else .irq (v - 32)

/-- `isr_common_stub` and `irq_common_stub`, up to the call of the handler. -/
def commonEntry (handler : Word) : List SegInstr :=
  [.pusha, .readSeg .eax .ds, .push .eax, .movLow .eax 0x10, .writeSeg .ds .eax, .writeSeg .es .eax,
    .writeSeg .fs .eax, .writeSeg .gs .eax, .push .esp, .call handler]

/-- The rest of the common stubs. -/
def commonExit : List SegInstr :=
  [.addEsp 4, .pop .eax, .writeSeg .ds .eax, .writeSeg .es .eax, .writeSeg .fs .eax,
    .writeSeg .gs .eax, .popa, .addEsp 8, .iret]

/-- What the linker has placed. -/
structure IsrImage where
  code : Word → Option SegInstr
  addr : Label → Word
  isrCommonStub : Word
  irqCommonStub : Word
  isrHandler : Word
  irqHandler : Word
  stubs : ∀ s ∈ stubTable, SegInstr.At code (addr s.label) (s.code isrCommonStub irqCommonStub)
  isrStub : SegInstr.At code isrCommonStub (commonEntry isrHandler ++ commonExit)
  irqStub : SegInstr.At code irqCommonStub (commonEntry irqHandler ++ commonExit)

namespace IsrImage

variable (K : IsrImage)

/-- The common stub to which a stub jumps. -/
def commonStub : Stub → Word
  | .irq .. => K.irqCommonStub
  | _ => K.isrCommonStub

/-- The code of a stub. -/
def stub (s : Stub) : List SegInstr := s.code K.isrCommonStub K.irqCommonStub

/-- The handler that the common stub calls. -/
def handler : Stub → Word
  | .irq .. => K.irqHandler
  | _ => K.isrHandler

end IsrImage

/-! ## Interrupts -/

/-- The processor pushes an error code for vectors 8, 10 to 14, 17 and 21. -/
def cpuError (v : ℕ) (e : Word) : Option Word :=
  if v = 8 ∨ 10 ≤ v ∧ v ≤ 14 ∨ v = 17 ∨ v = 21 then some e else none

/-- The stub behind gate `v`. -/
def stubOf (v : Fin 48) : Stub := stubTable.get v

/-- The machine at the call of the handler, after interrupt `v` with error code `e`. -/
def handlerCall (K : IsrImage) (v : Fin 48) (e : Word) (m : SegMachine) : Option SegMachine :=
  (m.interrupt 0x08 (K.addr (gate v)) (cpuError v e)).run K.code
    ((K.stub (stubOf v)).length + (commonEntry (K.handler (stubOf v))).length)

/-- The structure describes the interrupted code. -/
structure Describes (r : Registers) (v : ℕ) (error : Option Word) (m : SegMachine) : Prop where
  intNo : r.intNo = BitVec.ofNat 32 v
  errCode : r.errCode = error.getD 0
  eip : r.eip = m.eip
  cs : r.cs = m.cs.setWidth 32
  eflags : r.eflags = m.eflags.val
  edi : r.edi = m.regs .edi
  esi : r.esi = m.regs .esi
  ebp : r.ebp = m.regs .ebp
  ebx : r.ebx = m.regs .ebx
  edx : r.edx = m.regs .edx
  ecx : r.ecx = m.regs .ecx
  eax : r.eax = m.regs .eax

/-- The handler, called at `h`, has returned: the stack pointer is where it was at the call, and the
structure is as it was; anything else may have changed. -/
structure HandlerReturns (h t : SegMachine) : Prop where
  eip : t.eip = h.word h.esp
  esp : t.esp = h.esp + 4
  frame : ∀ k < 14, t.word (h.word (h.esp + 4) + BitVec.ofNat 32 (4 * k)) =
    h.word (h.word (h.esp + 4) + BitVec.ofNat 32 (4 * k))

/-- The interrupted code goes on, with its `ds` in every data segment register. -/
structure GoesOn (m f : SegMachine) : Prop where
  regs : f.regs = m.regs
  eflags : f.eflags = m.eflags
  eip : f.eip = m.eip
  cs : f.cs = m.cs
  segs : ∀ s, f.segs s = m.segs .ds

/-- At the call of the handler its argument describes the interrupted code, and if it returns, the
interrupted code goes on. -/
def FrameRight (K : IsrImage) (v : Fin 48) (e : Word) (m : SegMachine) : Prop :=
  ∃ h, handlerCall K v e m = some h ∧ h.eip = K.handler (stubOf v) ∧
    Describes (Registers.at h.toMachine (h.word (h.esp + 4))) v (cpuError v e) m ∧
    ∀ t, HandlerReturns h t → ∃ f, t.run K.code commonExit.length = some f ∧ GoesOn m f

/-! ## The way in -/

/-- What an interrupt leaves on the stack. -/
theorem interrupt_holds (cs : Selector) (entry : Word) (error : Option Word) (m : SegMachine) :
    (m.interrupt cs entry error).Holds m.esp
      (error.toList ++ [m.eip, m.cs.setWidth 32, m.eflags.val]) := by
  have hnil : m.Holds m.esp [] := ⟨by simp, trivial⟩
  have hcpu := ((hnil.push m.eflags.val (by simp)).push (m.cs.setWidth 32) (by simp)).push m.eip
    (by simp)
  cases error with
  | none => exact hcpu.congr rfl rfl
  | some e => exact (hcpu.push e (by simp)).congr rfl rfl

theorem interrupt_regs (cs : Selector) (entry : Word) (error : Option Word) (m : SegMachine)
    {r : Reg}
    (hr : r ≠ .esp) : (m.interrupt cs entry error).regs r = m.regs r := by
  cases error with
  | none =>
    have hpush := Machine.foldl_push_regs (m := m.toMachine) [m.eflags.val, m.cs.setWidth 32,
      m.eip] hr
    exact hpush
  | some e =>
    have hpush := Machine.foldl_push_regs (m := m.toMachine)
      [m.eflags.val, m.cs.setWidth 32, m.eip, e] hr
    exact hpush

variable {m : SegMachine} {base : Word} {ws : List Word}

/-- **A stub** pushes its words and jumps to the common stub. -/
theorem Stub.spec (K : IsrImage) (s : Stub) (h : m.Holds base ws)
    (hfit : 4 * (ws.length + 2) < 2 ^ 32) :
    ((K.stub s).foldl SegMachine.exec m).Holds base (s.words ++ ws) ∧
      (∀ r, r ≠ .esp → ((K.stub s).foldl SegMachine.exec m).regs r = m.regs r) ∧
      ((K.stub s).foldl SegMachine.exec m).segs = m.segs ∧
      ((K.stub s).foldl SegMachine.exec m).eip = K.commonStub s := by
  have hone : ∀ w, (m.toMachine.push w).Holds base (w :: ws) := fun w => h.push w (by omega)
  have htwo : ∀ w x, ((m.toMachine.push w).push x).Holds base (x :: w :: ws) := fun w x =>
    (hone w).push x (by rw [List.length_cons]; omega)
  have hregs : ∀ (us : List Word) (r : Reg), r ≠ .esp →
    (us.foldl Machine.push m.toMachine).regs r = m.regs r :=
    fun us r hr => Machine.foldl_push_regs us hr
  cases s with
  | isrNoErr n => exact ⟨(htwo _ _).congr rfl rfl, hregs [0, BitVec.ofNat 32 n], rfl, rfl⟩
  | isrErr n => exact ⟨(hone _).congr rfl rfl, hregs [BitVec.ofNat 32 n], rfl, rfl⟩
  | irq n vector => exact ⟨(htwo _ _).congr rfl rfl, hregs [0, BitVec.ofNat 32 vector], rfl, rfl⟩

/-- **The common stub** saves the registers and `ds`, and calls the handler with a pointer to
them. -/
theorem commonEntry_spec (handler : Word) (h : m.Holds base ws)
    (hfit : 4 * (ws.length + 11) < 2 ^ 32) :
    ∃ ds : Word, ds.setWidth 16 = m.segs .ds ∧
      ((commonEntry handler).foldl SegMachine.exec m).Holds base
        (SegInstr.after m.eip (commonEntry handler) ::
          (((commonEntry handler).foldl SegMachine.exec m).esp + 8) :: ds ::
          ((Machine.pushaOrder.map m.regs).reverse ++ ws)) ∧
      ((commonEntry handler).foldl SegMachine.exec m).eip = handler := by
  obtain ⟨u, hu⟩ : ∃ u, u = (m.exec .pusha).exec (.readSeg .eax .ds) := ⟨_, rfl⟩
  have hpusha : u.Holds base ((Machine.pushaOrder.map m.regs).reverse ++ ws) := by
    rw [hu]
    refine (h.pushes (Machine.pushaOrder.map m.regs) ?_).congr rfl rfl
    rw [List.length_map]
    change 4 * (8 + ws.length) < 2 ^ 32
    omega
  have hlen : ((Machine.pushaOrder.map m.regs).reverse ++ ws).length = ws.length + 8 := by
    rw [List.length_append, List.length_reverse, List.length_map, Nat.add_comm]
    rfl
  have hds : (u.regs .eax).setWidth 16 = m.segs .ds := by
    rw [hu]
    exact setWidth_setLow _ _
  have hpush := hpusha.push (u.regs .eax) (by rw [hlen]; omega)
  have hptr := hpush.push (u.esp - 4) (by rw [List.length_cons, hlen]; omega)
  have hcall := hptr.push (SegInstr.after m.eip (commonEntry handler))
    (by rw [List.length_cons, List.length_cons, hlen]; omega)
  refine ⟨u.regs .eax, hds, ?_, rfl⟩
  have hesp : ((commonEntry handler).foldl SegMachine.exec m).esp = u.esp - 4 - 4 - 4 := by
    rw [hu]
    rfl
  have hback : u.esp - 4 - 4 - 4 + 8 = u.esp - 4 := by bv_omega
  rw [hesp, hback]
  refine hcall.congr ?_ ?_
  · rw [hesp]
    rfl
  · rw [hu]
    rfl

/-! ## The way out -/

/-- The first instructions after the call drop the argument and give the saved `ds` to every data
segment register. -/
theorem commonExit_segs {t : SegMachine} {r ds : Word} (hr : t.esp + 4 = r) (hds : t.word r = ds) :
    ((commonExit.take 6).foldl SegMachine.exec t).esp = r + 4 ∧
      ((commonExit.take 6).foldl SegMachine.exec t).mem = t.mem ∧
      ∀ s, ((commonExit.take 6).foldl SegMachine.exec t).segs s = ds.setWidth 16 := by
  have hax : (t.word (t.esp + 4)).setWidth 16 = ds.setWidth 16 := by rw [hr, hds]
  refine ⟨?_, rfl, ?_⟩
  · rw [← hr]
    rfl
  · intro s
    cases s with
    | ds => exact hax
    | es => exact hax
    | fs => exact hax
    | gs => exact hax

/-- **The rest of the common stub** takes the registers, `ds` and what the processor has pushed from
the stack, where two words lie between them. -/
theorem commonExit_spec {t : SegMachine} {r ds skipped skipped' eip cs flags : Word}
    {g : Reg → Word}
    (hr : t.esp + 4 = r)
    (h : t.Stacked r
      (ds :: (Machine.pushaOrder.reverse.map g ++ [skipped, skipped', eip, cs, flags]))) :
    (commonExit.foldl SegMachine.exec t).regs = Function.update g .esp (r + 56) ∧
      (commonExit.foldl SegMachine.exec t).eflags = Flags.ofWord flags ∧
      (commonExit.foldl SegMachine.exec t).eip = eip ∧
      (commonExit.foldl SegMachine.exec t).cs = cs.setWidth 16 ∧
      ∀ s, (commonExit.foldl SegMachine.exec t).segs s = ds.setWidth 16 := by
  obtain ⟨hds, hrest⟩ := h
  obtain ⟨hregs, -, -, hframe⟩ := Machine.stacked_append.1 hrest
  obtain ⟨u, hu⟩ : ∃ u, u = (commonExit.take 6).foldl SegMachine.exec t := ⟨_, rfl⟩
  obtain ⟨hesp, hmem, hsegs⟩ := commonExit_segs hr hds
  rw [← hu] at hesp hmem hsegs
  have hpopa := SegMachine.popa_spec (m := u) g (by
    rw [hesp]
    exact hregs.congr hmem)
  have hpregs : (u.exec .popa).regs = Function.update g .esp (r + 36) := by
    have hsum : r + 4 + 32 = r + 36 := by bv_omega
    rw [hpopa]
    change Function.update g .esp (u.esp + 32) = _
    rw [hesp, hsum]
  -- the two words between are skipped
  obtain ⟨v, hv⟩ : ∃ v, v = (u.exec .popa).exec (.addEsp 8) := ⟨_, rfl⟩
  have hvregs : v.regs = Function.update g .esp (r + 44) := by
    have hsum : r + 36 + 8 = r + 44 := by bv_omega
    rw [hv, SegMachine.exec_addEsp_regs, Machine.esp, hpregs, Function.update_idem,
      Function.update_self, hsum]
  have hvesp : v.esp = r + 44 := by rw [Machine.esp, hvregs, Function.update_self]
  have hvmem : v.mem = t.mem := by
    rw [hv, SegMachine.exec_addEsp_mem, hpopa]
    exact hmem
  have hframe' : v.Stacked v.esp [eip, cs, flags] := by
    have haddr : r + 4 + BitVec.ofNat 32 (4 * (Machine.pushaOrder.reverse.map g).length) + 4 + 4 =
        v.esp := by
      rw [hvesp, List.length_map]
      change r + 4 + 32 + 4 + 4 = r + 44
      bv_omega
    rw [haddr] at hframe
    exact hframe.congr hvmem
  have hexit : commonExit.foldl SegMachine.exec t = v.exec .iret := by
    rw [hv, hu]
    rfl
  rw [hexit, SegMachine.iret_spec hframe']
  refine ⟨?_, rfl, rfl, rfl, ?_⟩
  · have hsum : r + 44 + 12 = r + 56 := by bv_omega
    rw [hvregs, hvesp, Function.update_idem, hsum]
  · intro s
    rw [← hsegs s]
    change v.segs s = _
    rw [hv, SegMachine.exec_addEsp_segs, hpopa]

/-! ## All vectors -/

section Vectors

variable (K : IsrImage) (v : Fin 48) (e : Word)

theorem stubOf_mem : stubOf v ∈ stubTable := List.get_mem _ _

theorem stubOf_label : (stubOf v).label = gate v := by
  revert v
  decide

theorem stubOf_words : (stubOf v).words =
    if v.val = 8 ∨ 10 ≤ v.val ∧ v.val ≤ 14 then [BitVec.ofNat 32 v] else
      [BitVec.ofNat 32 v, 0] := by
  revert v
  decide

theorem IsrImage.common_at (s : Stub) :
    SegInstr.At K.code (K.commonStub s) (commonEntry (K.handler s) ++ commonExit) := by
  cases s with
  | isrNoErr n => exact K.isrStub
  | isrErr n => exact K.isrStub
  | irq n vector => exact K.irqStub

theorem IsrImage.run_stub {s : Stub} (hs : s ∈ stubTable) {t : SegMachine}
    (h : t.eip = K.addr s.label) :
    t.run K.code (K.stub s).length = some ((K.stub s).foldl SegMachine.exec t) := by
  have hat : SegInstr.At K.code t.eip (K.stub s) := by
    rw [h]
    exact K.stubs s hs
  refine SegMachine.run_block ?_ hat
  cases s with
  | isrNoErr n => simp [stub, Stub.code, SegInstr.Leaves]
  | isrErr n => simp [stub, Stub.code, SegInstr.Leaves]
  | irq n vector => simp [stub, Stub.code, SegInstr.Leaves]

theorem IsrImage.run_commonEntry {s : Stub} {t : SegMachine} (h : t.eip = K.commonStub s) :
    t.run K.code (commonEntry (K.handler s)).length =
      some ((commonEntry (K.handler s)).foldl SegMachine.exec t) := by
  have hat : SegInstr.At K.code t.eip (commonEntry (K.handler s)) := by
    rw [h]
    exact (SegInstr.at_append.1 (K.common_at s)).1
  refine SegMachine.run_block ?_ hat
  simp [commonEntry, SegInstr.Leaves]

theorem IsrImage.run_commonExit {s : Stub} {t : SegMachine}
    (h : t.eip = SegInstr.after (K.commonStub s) (commonEntry (K.handler s))) :
    t.run K.code commonExit.length = some (commonExit.foldl SegMachine.exec t) := by
  have hat : SegInstr.At K.code t.eip commonExit := by
    rw [h]
    exact (SegInstr.at_append.1 (K.common_at s)).2
  refine SegMachine.run_block ?_ hat
  simp [commonExit, SegInstr.Leaves]

/-- **Every interrupt** leads to its handler, with its words, the registers and `ds` on the
stack. -/
theorem handlerCall_spec (m : SegMachine) : ∃ h ds g, handlerCall K v e m = some h ∧
    h.eip = K.handler (stubOf v) ∧ ds.setWidth 16 = m.segs .ds ∧ (∀ r, r ≠ .esp → g r = m.regs r) ∧
    h.Holds m.esp (SegInstr.after (K.commonStub (stubOf v)) (commonEntry (K.handler (stubOf v))) ::
      (h.esp + 8) :: ds :: ((Machine.pushaOrder.map g).reverse ++ ((stubOf v).words ++
        ((cpuError v e).toList ++ [m.eip, m.cs.setWidth 32, m.eflags.val])))) := by
  obtain ⟨u, hu⟩ : ∃ u, u = m.interrupt 0x08 (K.addr (gate v)) (cpuError v e) := ⟨_, rfl⟩
  have hholds := interrupt_holds 0x08 (K.addr (gate v)) (cpuError v e) m
  have hregs := fun r hr => interrupt_regs 0x08 (K.addr (gate v)) (cpuError v e) m (r := r) hr
  have heip : u.eip = K.addr (gate v) := by
    rw [hu]
    rfl
  have hsegs : u.segs = m.segs := by
    rw [hu]
    rfl
  rw [← hu] at hholds hregs
  -- the vector's stub
  have hshort : (cpuError v e).toList.length ≤ 1 := Option.length_toList_le
  obtain ⟨hholds', hregs', hsegs', heip'⟩ := Stub.spec K (stubOf v) hholds (by
    rw [List.length_append]
    simp only [List.length_cons, List.length_nil]
    omega)
  have hstub := K.run_stub (stubOf_mem v) (heip.trans (by rw [stubOf_label]))
  generalize (K.stub (stubOf v)).foldl SegMachine.exec u = t at hholds' hregs' hsegs' heip' hstub
  -- the common stub
  have hwords : (stubOf v).words.length ≤ 2 := by
    rw [stubOf_words]
    split_ifs <;> simp
  obtain ⟨ds, hds, hcall, hhandler⟩ := commonEntry_spec (K.handler (stubOf v)) hholds' (by
    rw [List.length_append, List.length_append]
    simp only [List.length_cons, List.length_nil]
    omega)
  have hcommon := K.run_commonEntry heip'
  rw [heip'] at hcall
  refine ⟨_, ds, t.regs, ?_, hhandler, ?_, ?_, hcall⟩
  · rw [handlerCall, ← hu, SegMachine.run_add, hstub, Option.bind_some, hcommon]
  · rw [hds, hsegs', hsegs]
  · intro r hr
    rw [hregs' r hr, hregs r hr]

/-- When the stub and the processor agree on the error code, the structure describes the interrupted
code. -/
theorem describes_of_stacked {h m : SegMachine} {r ds err : Word} {g : Reg → Word} {n : ℕ}
    {error : Option Word} (herr : err = error.getD 0) (hg : ∀ q, q ≠ .esp → g q = m.regs q)
    (hs : h.Stacked r (ds :: ((Machine.pushaOrder.map g).reverse ++
      [BitVec.ofNat 32 n, err, m.eip, m.cs.setWidth 32, m.eflags.val]))) :
    Describes (Registers.at h.toMachine r) n error m := by
  obtain ⟨-, hedi, hesi, hebp, -, hebx, hedx, hecx, heax, hint, hcode, heip, hcs, hflags, -⟩ := hs
  simp only [BitVec.add_assoc, BitVec.reduceAdd]
    at hedi hesi hebp hebx hedx hecx heax hint hcode heip hcs hflags
  constructor
  case intNo => exact hint
  case errCode => exact hcode.trans herr
  case eip => exact heip
  case cs => exact hcs
  case eflags => exact hflags
  case edi => exact hedi.trans (hg .edi (by decide))
  case esi => exact hesi.trans (hg .esi (by decide))
  case ebp => exact hebp.trans (hg .ebp (by decide))
  case ebx => exact hebx.trans (hg .ebx (by decide))
  case edx => exact hedx.trans (hg .edx (by decide))
  case ecx => exact hecx.trans (hg .ecx (by decide))
  case eax => exact heax.trans (hg .eax (by decide))

/-- With a word too many, every field from the error code on is wrong. -/
theorem not_describes_of_stacked {h m : SegMachine} {r ds : Word} {g : Reg → Word} {n : ℕ}
    (hs : h.Stacked r (ds :: ((Machine.pushaOrder.map g).reverse ++
      [BitVec.ofNat 32 n, 0, e, m.eip, m.cs.setWidth 32, m.eflags.val]))) :
    ¬ Describes (Registers.at h.toMachine r) n (some e) m := by
  obtain ⟨-, -, -, -, -, -, -, -, -, -, hcode, heip, hcs, hflags, -⟩ := hs
  simp only [BitVec.add_assoc, BitVec.reduceAdd] at hcode heip hcs hflags
  intro hd
  have h1 : e = 0 := hd.errCode.symm.trans hcode
  have h2 : m.eip = e := hd.eip.symm.trans heip
  have h3 : m.cs.setWidth 32 = m.eip := hd.cs.symm.trans hcs
  have h4 : m.eflags.val = m.cs.setWidth 32 := hd.eflags.symm.trans hflags
  -- bit 1 of the flags is always set
  have hbit := m.eflags.property
  rw [h4, h3, h2, h1] at hbit
  exact absurd hbit (by decide)

/-- **Interrupt frames.** For every vector and every state of the registers, at the call of the
handler the `struct registers` describes the interrupted code, and when the handler returns the
interrupted code goes on as it was, if and only if the vector is neither 17 nor 21. -/
theorem interrupt_frames (m : SegMachine) :
    FrameRight K v e m ↔ v.val ≠ 17 ∧ v.val ≠ 21 := by
  obtain ⟨h, ds, g, hcall, heip, hds, hg, hbase, hret, hptr, hstack⟩ := handlerCall_spec K v e m
  have hr : h.esp + 4 + 4 = h.esp + 8 := by bv_omega
  rw [hr] at hstack
  rw [stubOf_words] at hstack hbase
  constructor
  · rintro ⟨h', hcall', -, hd, -⟩
    obtain rfl := Option.some.inj (hcall.symm.trans hcall')
    rw [hptr] at hd
    rw [← not_or]
    intro hv
    have herror : cpuError v e = some e := if_pos (Or.inr (Or.inr hv))
    rw [if_neg (by omega), herror] at hstack
    rw [herror] at hd
    exact not_describes_of_stacked e hstack hd
  · rintro ⟨h17, h21⟩
    obtain ⟨err, herr, hwords⟩ : ∃ err, err = (cpuError v e).getD 0 ∧
        (if v.val = 8 ∨ 10 ≤ v.val ∧ v.val ≤ 14 then [BitVec.ofNat 32 v] else
          [BitVec.ofNat 32 v, 0]) ++
          ((cpuError v e).toList ++ [m.eip, m.cs.setWidth 32, m.eflags.val]) =
        [BitVec.ofNat 32 v, err, m.eip, m.cs.setWidth 32, m.eflags.val] := by
      refine ⟨_, rfl, ?_⟩
      unfold cpuError
      by_cases hv : v.val = 8 ∨ 10 ≤ v.val ∧ v.val ≤ 14
      · rw [if_pos hv, if_pos (by omega)]
        rfl
      · rw [if_neg hv, if_neg (by omega)]
        rfl
    rw [hwords] at hstack hbase
    refine ⟨h, hcall, heip, ?_, fun t ht => ?_⟩
    · rw [hptr]
      exact describes_of_stacked herr hg hstack
    · have hesp : t.esp + 4 = h.esp + 8 := by
        rw [ht.esp, hr]
      have hframe := ht.frame
      rw [hptr] at hframe
      have hstack' := hstack.of_words (t := t.toMachine) fun k hk => hframe k hk
      rw [← List.map_reverse] at hstack'
      obtain ⟨hregs, heflags, heip', hcs, hsegs⟩ := commonExit_spec hesp hstack'
      refine ⟨_, K.run_commonExit (ht.eip.trans hret), ?_, ?_, heip', ?_, ?_⟩
      · rw [hregs]
        funext q
        rw [Function.update_apply]
        split_ifs with hq
        · rw [hq]
          change h.esp + 64 = m.esp at hbase
          rw [BitVec.add_assoc]
          exact hbase
        · exact hg q hq
      · rw [heflags, Flags.ofWord_val]
      · rw [hcs]
        simp
      · intro s
        rw [hsegs s, hds]

end Vectors

/-! ## Vector 17 -/

/-- The instruction at `a`, in a block that starts at `start`. -/
def fetchBlock (a : Word) : Word → List SegInstr → Option SegInstr
  | _, [] => none
  | start, i :: is => if a = start then some i else fetchBlock a (start + i.size) is

/-- Addresses for the labels. -/
def sampleAddr : Label → Word
  | .isr n => BitVec.ofNat 32 (0x1000 + 16 * n)
  | .irq n => BitVec.ofNat 32 (0x1000 + 16 * (32 + n))

/-- The block in which an address lies, with the block's address. -/
def sampleBlock (a : ℕ) : Word × List SegInstr :=
  if a < 0x3000 then
    let s := stubTable.getD ((a - 0x1000) / 16) (.isrNoErr 0)
    (sampleAddr s.label, s.code 0x3000 0x3100)
  else if a < 0x3100 then (0x3000, commonEntry 0x4000 ++ commonExit)
  else (0x3100, commonEntry 0x4100 ++ commonExit)

/-- An image with the stubs in low memory. -/
def sampleImage : IsrImage where
  code a := fetchBlock a (sampleBlock a.toNat).1 (sampleBlock a.toNat).2
  addr := sampleAddr
  isrCommonStub := 0x3000
  irqCommonStub := 0x3100
  isrHandler := 0x4000
  irqHandler := 0x4100
  stubs := by decide +kernel
  isrStub := by decide +kernel
  irqStub := by decide +kernel

/-- Code at `0x5000` with its stack at `0x9000`. -/
def sampleMachine : SegMachine where
  regs r := if r = .esp then 0x9000 else 0
  eflags := Flags.ofWord 0x202
  eip := 0x5000
  mem _ := 0
  cs := 0x08
  segs _ := 0x10

/-- **Vector 17**, with the error code 0 that the processor pushes: the structure's `eip` is the
error code, its `cs` is the `eip` of the interrupted code, and its error code is the zero of the
stub. -/
theorem interrupt_frames_alignmentCheck :
    (handlerCall sampleImage 17 0 sampleMachine).map (fun h =>
      ((Registers.at h.toMachine (h.word (h.esp + 4))).intNo,
        (Registers.at h.toMachine (h.word (h.esp + 4))).errCode,
        (Registers.at h.toMachine (h.word (h.esp + 4))).eip,
        (Registers.at h.toMachine (h.word (h.esp + 4))).cs)) = some (17, 0, 0, 0x5000) ∧
    ¬ FrameRight sampleImage 17 0 sampleMachine := by
  have hfields : (handlerCall sampleImage 17 0 sampleMachine).map (fun h =>
      ((Registers.at h.toMachine (h.word (h.esp + 4))).intNo,
        (Registers.at h.toMachine (h.word (h.esp + 4))).errCode,
        (Registers.at h.toMachine (h.word (h.esp + 4))).eip,
        (Registers.at h.toMachine (h.word (h.esp + 4))).cs)) = some (17, 0, 0, 0x5000) := by
    decide +kernel
  refine ⟨hfields, ?_⟩
  rintro ⟨h, hcall, -, hd, -⟩
  rw [hcall, Option.map_some] at hfields
  have heip := hd.eip
  simp only [Option.some.injEq, Prod.mk.injEq] at hfields
  rw [hfields.2.2.1] at heip
  exact absurd heip (by decide)

end JarvisOS
