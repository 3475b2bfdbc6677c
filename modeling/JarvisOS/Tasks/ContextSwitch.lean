import JarvisOS.Foundations.Machine

/-!
# `context_switch`

The routine of `switch.asm` on the machine: it leaves a frame of its caller on the caller's stack,
stores the stack pointer, and goes on from the frame on the other stack.
-/

namespace JarvisOS

open Foundations

/-- `context_switch(save_esp, new_esp)`. -/
def contextSwitch : List Instr :=
  [.pusha, .pushfd, .load .eax .esp 40, .load .ecx .esp 44, .store .eax .esp, .mov .esp .ecx,
    .popfd, .popa, .ret]

/-- The machine is at the entry of `context_switch(save_esp, new_esp)`, with room on the stack. -/
structure AtEntry (m : Machine) (saveEsp newEsp : Word) : Prop where
  saveEsp : m.word (m.esp + 4) = saveEsp
  newEsp : m.word (m.esp + 8) = newEsp
  room : 36 ≤ m.esp.toNat
  fit : m.esp.toNat + 12 ≤ 2 ^ 32

variable {m : Machine} {saveEsp newEsp : Word}

/-- **`context_switch`** leaves the caller's frame under the return address, stores where it is, and
goes on from the frame at `newEsp`. -/
theorem contextSwitch_spec (h : AtEntry m saveEsp newEsp) : ∃ mem : Mem,
    mem.WordsAt (m.esp - 36).toNat ((m.toCpu.returned (m.word m.esp)).frame m.esp) ∧
    (∀ x, x < (m.esp - 36).toNat ∨ m.esp.toNat ≤ x → mem x = m.mem x) ∧
    ∀ {c : Cpu} {skipped : Word}, newEsp.toNat + 40 ≤ 2 ^ 32 →
      (mem.write32 saveEsp.toNat (m.esp - 36).toNat).WordsAt newEsp.toNat (c.frame skipped) →
      contextSwitch.foldl Machine.exec m =
        { c with
          regs := Function.update c.regs .esp (newEsp + 40)
          mem := mem.write32 saveEsp.toNat (m.esp - 36).toNat } := by
  obtain ⟨mem, hsave, hframe, hmem⟩ := m.save_spec h.room
  refine ⟨mem, hframe, hmem, ?_⟩
  intro c skipped hfit hwords
  have hargs := h.fit
  -- the arguments, as they stand above what has been pushed
  have harg : ∀ a b : Word, a.toNat = b.toNat → m.esp.toNat ≤ b.toNat →
      BitVec.ofNat 32 (mem.read32 a.toNat) = m.word b := by
    intro a b hab hb
    rw [hab, Mem.read32_congr fun x h1 _ => hmem x (Or.inr (hb.trans h1)), Machine.word]
  have hsaveEsp : BitVec.ofNat 32 (mem.read32 (m.esp - 36 + 40).toNat) = saveEsp := by
    rw [← h.saveEsp]
    apply harg
    · bv_omega
    · bv_omega
  have hnewEsp : BitVec.ofNat 32 (mem.read32 (m.esp - 36 + 44).toNat) = newEsp := by
    rw [← h.newEsp]
    apply harg
    · bv_omega
    · bv_omega
  obtain ⟨u, hu⟩ : ∃ u, u = (((((m.exec .pusha).exec .pushfd).exec (.load .eax .esp 40)).exec
      (.load .ecx .esp 44)).exec (.store .eax .esp)).exec (.mov .esp .ecx) := ⟨_, rfl⟩
  have hfold : contextSwitch.foldl Machine.exec m = ((u.exec .popfd).exec .popa).exec .ret := by
    rw [hu]
    rfl
  have hregs : u.esp = newEsp ∧ u.mem = mem.write32 saveEsp.toNat (m.esp - 36).toNat := by
    rw [hu, hsave]
    simp only [Machine.exec, Machine.effect, Machine.set, Machine.word, Function.update_apply,
      reduceCtorEq, if_true, if_false, hsaveEsp, hnewEsp]
    exact ⟨rfl, trivial⟩
  rw [hfold, Machine.restore_spec (by rw [hregs.1]; exact hfit)
    (by rw [hregs.1, hregs.2]; exact hwords), hregs.1, hregs.2]

end JarvisOS
