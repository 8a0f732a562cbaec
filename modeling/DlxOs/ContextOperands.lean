-- The address that an instruction uses, taken from the frame of the process that
-- was interrupted. The place of `r0` in the frame has the link to the frame before
-- it, so an instruction with the base `r0` is right only where there is none.
import DlxOs.ContextRuns

namespace dlxos.context

open Function dlx

/-! ## The routine -/

/-- `pcb->currentSavedFrame` is the first word of the PCB. -/
def MemoryGetOperandAddress (mem : Word → Word) (pcb instr : Word) : Word :=
  let invalidOps : Word := 0x3404
  let opcode := (instr >>> 26) &&& 0x3f
  if opcode < 0x20 ∨ opcode > 0x2f ∨ (invalidOps >>> (opcode - 0x20)) &&& 1 ≠ 0 then 0xffffffff
  else
    let reg := (instr >>> 21) &&& 0x1f
    let offset := instr &&& 0xffff
    let offset := if offset &&& 0x8000 ≠ 0 then offset ||| 0xffff0000 else offset
    let regValue := mem (mem pcb + 4 * (BitVec.ofNat 32 PROCESS_STACK_IREG + reg))
    regValue + offset

/-! ## The instruction -/

/-- The six bits of the opcode. -/
def opcodeOf (instr : Word) : BitVec 6 := instr.extractLsb' 26 6

/-- Loads and stores: the opcodes from 0x20 to 0x2f, but for four that do not exist. -/
def IsMemory (instr : Word) : Prop :=
  0x20 ≤ opcodeOf instr ∧ opcodeOf instr ≤ 0x2f ∧ opcodeOf instr ∉ [0x22, 0x2a, 0x2c, 0x2d]

instance (instr : Word) : Decidable (IsMemory instr) := inferInstanceAs (Decidable (_ ∧ _))

/-- The base register, in bits 21 to 25. -/
def baseOf (instr : Word) : Reg := (instr.extractLsb' 21 5).toFin

/-- The 16 bits of the offset, with their sign. -/
def offsetOf (instr : Word) : Word := (instr.extractLsb' 0 16).signExtend 32

/-- The address that the instruction uses on the machine. -/
def operandAddress (m : Machine) (instr : Word) : Word :=
  if IsMemory instr then m.get (baseOf instr) + offsetOf instr else 0xffffffff

section Decoding

variable {instr : Word}

theorem field_eq (n k : Nat) :
    (instr >>> n) &&& BitVec.ofNat 32 (2 ^ k - 1) = (instr.extractLsb' n k).setWidth 32 := by
  apply BitVec.eq_of_getLsbD_eq
  intro i hi
  rw [BitVec.getLsbD_and, BitVec.getLsbD_ushiftRight, BitVec.getLsbD_ofNat,
    Nat.testBit_two_pow_sub_one, BitVec.getLsbD_setWidth, BitVec.getLsbD_extractLsb']
  simp [hi, Bool.and_comm]

theorem opcode_eq : (instr >>> 26) &&& 0x3f = (opcodeOf instr).setWidth 32 := field_eq 26 6

theorem reg_eq : (instr >>> 21) &&& 0x1f = (instr.extractLsb' 21 5).setWidth 32 := field_eq 21 5

theorem invalid_iff (op : BitVec 6) :
    (op.setWidth 32 < (0x20 : Word) ∨ op.setWidth 32 > (0x2f : Word) ∨
      ((0x3404 : Word) >>> (op.setWidth 32 - (0x20 : Word))) &&& 1 ≠ 0) ↔
      ¬ (0x20 ≤ op ∧ op ≤ 0x2f ∧ op ∉ [0x22, 0x2a, 0x2c, 0x2d]) := by
  revert op
  decide +kernel

/-- Setting the upper half extends the sign. -/
theorem signExtend_eq (o : BitVec 16) :
    (if o.setWidth 32 &&& (0x8000 : Word) ≠ 0 then o.setWidth 32 ||| (0xffff0000 : Word)
      else o.setWidth 32) = o.signExtend 32 := by
  have hsign : o.setWidth 32 &&& (0x8000 : Word) =
      if o.msb then BitVec.twoPow 32 15 else 0#32 := by
    rw [show (0x8000 : Word) = BitVec.twoPow 32 15 from rfl, BitVec.and_twoPow,
      BitVec.getLsbD_setWidth, BitVec.msb_eq_getLsbD_last]
    rfl
  have hupper : ∀ i < 32, (0xffff0000 : Word).getLsbD i = decide (16 ≤ i) := by decide
  rw [hsign]
  cases hmsb : o.msb with
  | false => exact (BitVec.signExtend_eq_setWidth_of_msb_false hmsb).symm
  | true =>
    have hne : BitVec.twoPow 32 15 ≠ 0 := by decide
    rw [if_pos rfl, if_pos hne]
    apply BitVec.eq_of_getLsbD_eq
    intro i hi
    rw [BitVec.getLsbD_or, hupper i hi, BitVec.getLsbD_setWidth, BitVec.getLsbD_signExtend, hmsb]
    by_cases h16 : i < 16
    · simp [hi, h16]
    · simp [hi, h16, Nat.not_lt.mp h16]

theorem offset_eq : (if (instr &&& 0xffff) &&& 0x8000 ≠ 0 then (instr &&& 0xffff) ||| 0xffff0000
    else instr &&& 0xffff) = offsetOf instr := by
  have hfield : instr &&& 0xffff = (instr.extractLsb' 0 16).setWidth 32 := field_eq 0 16
  rw [hfield]
  exact signExtend_eq _

end Decoding

/-! ## The frame -/

/-- The place of a register in a frame, as `MemoryGetOperandAddress` takes it. -/
def regOffset (i : Reg) : Word :=
  4 * (BitVec.ofNat 32 PROCESS_STACK_IREG + BitVec.ofNat 32 i.val)

theorem MemoryGetOperandAddress_eq (mem : Word → Word) (pcb instr : Word) :
    MemoryGetOperandAddress mem pcb instr =
      if IsMemory instr then mem (mem pcb + regOffset (baseOf instr)) + offsetOf instr
      else 0xffffffff := by
  have hbase : (instr.extractLsb' 21 5).setWidth 32 = BitVec.ofNat 32 (baseOf instr).val :=
    (BitVec.ofNat_toNat ..).symm
  unfold MemoryGetOperandAddress regOffset
  simp only [opcode_eq, reg_eq, offset_eq, hbase]
  by_cases h : IsMemory instr
  · rw [if_pos h, if_neg fun hinvalid => (invalid_iff _).mp hinvalid h]
  · rw [if_neg h, if_pos ((invalid_iff _).mpr h)]

/-- Every register but `r0` is in the frame, at its place. -/
theorem reg_mem {c : Cpu} {i : Reg} (hi : i ≠ 0) : (regOffset i, c.r i) ∈ regWords c := by
  have hplaces : ∀ i : Reg, i ≠ 0 →
      i = 29 ∧ regOffset i = 156 ∨ (regOffset i, i) ∈ intRegs ∨ i = 31 ∧ regOffset i = 164 := by
    decide +kernel
  unfold regWords
  rcases hplaces i hi with ⟨rfl, h⟩ | h | ⟨rfl, h⟩
  · rw [h]
    simp
  · have hmem := List.mem_map_of_mem (f := fun x : Word × Reg => (x.1, c.r x.2)) h
    simp only [List.cons_append, List.mem_cons, List.mem_append]
    tauto
  · rw [h]
    simp

/-! ## After an interrupt -/

section Runs

variable {Pid : Type} {L : Layout Pid} {sb s0 s1 s2 : State Pid} {p : Pid}
  {tr0 tr : List (Event Pid)} {t : Latch} [DecidableEq Pid]

/-- While the frame of an interrupt is on top with no result in it, the place of `r0` has
the link to the frame before, and the other places have the registers. -/
theorem frame_places (hboot : Booted sb) (hreach : Run L sb tr0 s0)
    (hin : Step L s0 (.interrupt p t) s1) (hrun : Run L s1 tr s2)
    (htrack : track p tr = some (0, none)) (i : Reg) :
    s2.m.mem (s2.m.mem (L.pcb p) + regOffset i) =
      if i = 0 then s0.m.mem (L.pcb p) else s0.m.get i := by
  have h2 : Inv L s2 := ((hboot.inv.run hreach).step hin).run hrun
  cases hin with
  | interrupt hcur hp ht hroom =>
  obtain ⟨P2, l, hp2, hsaved⟩ := Holding.interrupt (o := decide _) (update_self ..)
    decide_eq_true_iff.symm hrun (follow_of_track htrack)
  have hproc := h2.proc p P2 hp2
  rw [hproc.current _ (by rw [hsaved]; rfl)]
  have hholds := hproc.holds _ (by rw [hsaved]; exact List.mem_cons_self)
  by_cases hi : i = 0
  · subst hi
    rw [if_pos rfl, ← interruptFrame_prev hcur (t := t)]
    exact hholds (40, _) (List.mem_append_right _ (List.mem_singleton_self _))
  · rw [if_neg hi, ← interruptFrame_r hi (L := L) (t := t)]
    exact hholds _ (List.mem_append_left _ (reg_mem hi))

/-- `MemoryGetOperandAddress` gives the address that the instruction would use, just when
it has no memory operand, or its base is not `r0`, or there was no frame before. -/
theorem operand_address_iff (hboot : Booted sb) (hreach : Run L sb tr0 s0)
    (hin : Step L s0 (.interrupt p t) s1) (hrun : Run L s1 tr s2)
    (htrack : track p tr = some (0, none)) (instr : Word) :
    MemoryGetOperandAddress s2.m.mem (L.pcb p) instr = operandAddress s0.m instr ↔
      ¬ IsMemory instr ∨ baseOf instr ≠ 0 ∨ s0.m.mem (L.pcb p) = 0 := by
  have hplaces := frame_places hboot hreach hin hrun htrack (baseOf instr)
  rw [MemoryGetOperandAddress_eq, hplaces]
  unfold operandAddress
  by_cases hmem : IsMemory instr
  · rw [if_pos hmem, if_pos hmem]
    by_cases hi : baseOf instr = 0
    · have hzero : s0.m.get 0 = 0 := rfl
      rw [if_pos hi, hi, hzero, BitVec.add_left_inj]
      tauto
    · rw [if_neg hi]
      exact iff_of_true rfl (.inr (.inl hi))
  · rw [if_neg hmem, if_neg hmem]
    exact iff_of_true rfl (.inl hmem)

end Runs

namespace twoProcesses

/-- `lw r2,4(r1)`, right after the trap of a user process. -/
theorem operand_of_user : MemoryGetOperandAddress trap0.m.mem (layout.pcb false) 0x8c220004 =
    operandAddress user0.m 0x8c220004 :=
  (operand_address_iff boot_booted user0_run trap0_step Run.nil rfl 0x8c220004).mpr
    (.inr (.inl (by decide)))

/-- `lw r1,0(r0)` in a handler that traps: the address is that of the frame before. -/
theorem operand_of_handler : ¬ ∀ (L : Layout Bool) (sb s0 s1 s2 : State Bool) (p : Bool)
    (tr0 tr : List (Event Bool)) (t : Latch), Booted sb → Run L sb tr0 s0 →
    Step L s0 (.interrupt p t) s1 → Run L s1 tr s2 → track p tr = some (0, none) →
    ∀ instr, MemoryGetOperandAddress s2.m.mem (L.pcb p) instr = operandAddress s0.m instr := by
  intro hall
  have hreach := (user0_run.snoc trap0_step).append trap1_run
  have hsame := hall _ _ _ _ _ _ _ _ _ boot_booted hreach nested1_step Run.nil rfl 0x8c010000
  have hbase : baseOf 0x8c010000 = 0 := by decide
  have hplace := frame_places boot_booted hreach nested1_step Run.nil rfl 0
  have hmem : IsMemory 0x8c010000 := by decide
  have hoffset : offsetOf 0x8c010000 = 0 := by decide
  rw [MemoryGetOperandAddress_eq, operandAddress, if_pos hmem, if_pos hmem, hbase, hoffset, hplace,
    if_pos rfl] at hsame
  exact absurd hsame (by decide +kernel)

end twoProcesses

end dlxos.context
