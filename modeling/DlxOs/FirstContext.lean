-- The first frame of a process. `ProcessFork` writes it so that the process
-- looks as if an interrupt had stopped it before its first instruction, and
-- `_intrreturn` starts it from there.
import DlxOs.Arguments
import DlxOs.ContextRuns

namespace dlxos.context

open Function dlx

/-! ## What `ProcessFork` writes -/

def PROCESS_STACK_FREG : Nat := PROCESS_STACK_IREG + 32
def PROCESS_STACK_IAR : Nat := PROCESS_STACK_FREG + 32
def PROCESS_STACK_ISR : Nat := PROCESS_STACK_IAR + 1
def PROCESS_STACK_CAUSE : Nat := PROCESS_STACK_IAR + 2
def PROCESS_STACK_FAULT : Nat := PROCESS_STACK_IAR + 3
def PROCESS_STACK_PTBASE : Nat := PROCESS_STACK_IAR + 4
def PROCESS_STACK_PTSIZE : Nat := PROCESS_STACK_IAR + 5
def PROCESS_STACK_PTBITS : Nat := PROCESS_STACK_IAR + 6
def PROCESS_INIT_ISR_USER : Word := 0x100
def MEMORY_L1_PAGE_SIZE_BITS : Word := 16
def MEMORY_L2_PAGE_SIZE_BITS : Word := 16

/-- The fields of a PCB that `ProcessFork` writes, by their place in it. -/
def sysStackPtr : Word := 4
def sysStackArea : Word := 8
def pagetable : Word := 96
def npages : Word := 160

/-- The end of a PCB. -/
def sizeofPCB : Nat := 168

/-- The page of a system stack. -/
structure StackPage where
  addr : Word
  aligned : addr.toNat % MEMORY_PAGE_SIZE = 0

variable {A : StackPage} {a : Word} {i : Nat}

theorem StackPage.fits (A : StackPage) : A.addr.toNat + MEMORY_PAGE_SIZE ≤ 2 ^ 32 := by
  have hlt := A.addr.isLt
  have haligned := A.aligned
  simp only [MEMORY_PAGE_SIZE] at haligned ⊢
  omega

/-- `((uint32 *)(pcb->sysStackArea + MEMORY_PAGE_SIZE)) - (PROCESS_STACK_FRAME_SIZE + 8)` -/
def StackPage.stackframe (A : StackPage) : Word :=
  A.addr + BitVec.ofNat 32 (MEMORY_PAGE_SIZE - 4 * (PROCESS_STACK_FRAME_SIZE + 8))

/-- The address of `stackframe[i]`. -/
def StackPage.word (A : StackPage) (i : Nat) : Word := A.stackframe + BitVec.ofNat 32 (4 * i)

/-- The stores of `ProcessFork` to the PCB, in their order. -/
def pcbStores (pcb pte : Word) (A : StackPage) : List (Word × Word) :=
  [(pcb + npages, 1), (pcb + pagetable, pte), (pcb + sysStackArea, A.addr),
    (pcb + sysStackPtr, A.stackframe), (pcb, A.stackframe)]

/-- The stores to `stackframe[..]` for a user process, in their order. `count`
words of arguments go on the user stack. -/
def frameStores (pcb start : Word) (count : Nat) : List (Nat × Word) :=
  [(PROCESS_STACK_PREV_FRAME, 0), (PROCESS_STACK_PTBASE, pcb + pagetable),
    (PROCESS_STACK_PTSIZE, 1),
    (PROCESS_STACK_PTBITS, MEMORY_L1_PAGE_SIZE_BITS + MEMORY_L2_PAGE_SIZE_BITS <<< 16),
    (PROCESS_STACK_ISR, PROCESS_INIT_ISR_USER),
    (PROCESS_STACK_IREG + 29, BitVec.ofNat 32 (MEMORY_PAGE_SIZE - SIZE_ARG_BUFF)),
    (PROCESS_STACK_IREG + 29, BitVec.ofNat 32 (MEMORY_PAGE_SIZE - SIZE_ARG_BUFF - 4 * count)),
    (PROCESS_STACK_IAR, start)]

def forkStores (pcb pte start : Word) (A : StackPage) (count : Nat) : List (Word × Word) :=
  pcbStores pcb pte A ++ (frameStores pcb start count).map fun x => (A.word x.1, x.2)

/-! ## The frame in memory -/

/-- The address of a special register in a frame. -/
def specialWord : Special → Nat
  | .iar => PROCESS_STACK_IAR
  | .isr => PROCESS_STACK_ISR
  | .cause => PROCESS_STACK_CAUSE
  | .fault => PROCESS_STACK_FAULT
  | .ptbase => PROCESS_STACK_PTBASE
  | .ptsize => PROCESS_STACK_PTSIZE
  | .ptbits => PROCESS_STACK_PTBITS
  | .ir31 | .status => 0

/-- The registers that a frame in memory holds. -/
def StackPage.regs (A : StackPage) (mem : Word → Word) : Cpu where
  r i := mem (A.word (PROCESS_STACK_IREG + i.val))
  f i := mem (A.word (PROCESS_STACK_FREG + i.val))
  special s := mem (A.word (specialWord s))

/-- The first frame, as it is in memory. -/
def StackPage.saved (A : StackPage) (mem : Word → Word) : Saved :=
  ⟨A.stackframe, A.regs mem, mem (A.word PROCESS_STACK_PREV_FRAME)⟩

theorem intRegs_words : ∀ x ∈ intRegs,
    x.1 = BitVec.ofNat 32 (4 * (PROCESS_STACK_IREG + x.2.val)) :=
  List.forall_iff_forall_mem.mp (by decide)

theorem floatRegs_words : ∀ x ∈ floatRegs,
    x.1 = BitVec.ofNat 32 (4 * (PROCESS_STACK_FREG + x.2.val)) ∧
      x.1 + 4 = BitVec.ofNat 32 (4 * (PROCESS_STACK_FREG + (x.2 + 1).val)) :=
  List.forall_iff_forall_mem.mp (by decide)

theorem specialRegs_words : ∀ x ∈ specialRegs,
    x.2.2 = BitVec.ofNat 32 (4 * specialWord x.2.1) :=
  List.forall_iff_forall_mem.mp (by decide)

/-- The offsets of the assembly code are those of `process.h`. -/
theorem StackPage.holds (A : StackPage) (mem : Word → Word) : (A.saved mem).Holds mem := by
  intro w hw
  simp only [Saved.words, frameWords, regWords, List.mem_append, List.mem_cons, List.mem_map,
    List.mem_flatMap, List.not_mem_nil, or_false] at hw
  rcases hw with ((((rfl | ⟨x, hx, rfl⟩) | rfl) | ⟨x, hx, rfl | rfl⟩) | ⟨x, hx, rfl⟩) | rfl
  · rfl
  · rw [intRegs_words x hx]
    rfl
  · rfl
  · rw [(floatRegs_words x hx).1]
    rfl
  · rw [(floatRegs_words x hx).2]
    rfl
  · rw [specialRegs_words x hx]
    rfl
  · rfl

/-! ## The words of the frame -/

theorem word_toNat (hi : i < PROCESS_STACK_FRAME_SIZE) : (A.word i).toNat =
    A.addr.toNat + (MEMORY_PAGE_SIZE - 4 * (PROCESS_STACK_FRAME_SIZE + 8) + 4 * i) := by
  have hfits := A.fits
  unfold StackPage.word StackPage.stackframe
  simp only [MEMORY_PAGE_SIZE, PROCESS_STACK_FRAME_SIZE] at hfits hi ⊢
  bv_omega

theorem stackframe_toNat (A : StackPage) : A.stackframe.toNat =
    A.addr.toNat + (MEMORY_PAGE_SIZE - 4 * (PROCESS_STACK_FRAME_SIZE + 8)) := by
  have hfits := A.fits
  unfold StackPage.stackframe
  simp only [MEMORY_PAGE_SIZE, PROCESS_STACK_FRAME_SIZE] at hfits ⊢
  bv_omega

theorem word_inj {j : Nat} (hi : i < PROCESS_STACK_FRAME_SIZE) (hj : j < PROCESS_STACK_FRAME_SIZE) :
    A.word i = A.word j ↔ i = j := by
  refine ⟨fun h => ?_, fun h => h ▸ rfl⟩
  have hnat := congrArg BitVec.toNat h
  rw [word_toNat hi, word_toNat hj] at hnat
  simp only [MEMORY_PAGE_SIZE, PROCESS_STACK_FRAME_SIZE] at hnat
  omega

theorem le_stackframe (A : StackPage) : A.addr.toNat ≤ A.stackframe.toNat := by
  rw [stackframe_toNat]
  exact Nat.le_add_right ..

theorem stackframe_fits (A : StackPage) : A.stackframe.toNat + 340 ≤ 2 ^ 32 := by
  have hfits := A.fits
  rw [stackframe_toNat]
  simp only [MEMORY_PAGE_SIZE, PROCESS_STACK_FRAME_SIZE] at hfits ⊢
  omega

/-- The stack of the process, up to the end of its first frame. -/
def StackPage.area (A : StackPage) : Area where
  low := A.addr
  home := A.stackframe
  low_le := le_stackframe A
  fits := stackframe_fits A

theorem StackPage.owns (hi : i < PROCESS_STACK_FRAME_SIZE) : A.area.Owns (A.word i) := by
  unfold Area.Owns StackPage.area
  simp only
  rw [word_toNat hi, stackframe_toNat]
  simp only [PROCESS_STACK_FRAME_SIZE] at hi ⊢
  omega

theorem frameStores_lt {pcb start : Word} {count : Nat} :
    ∀ x ∈ frameStores pcb start count, x.1 < PROCESS_STACK_FRAME_SIZE := by
  simp [frameStores, PROCESS_STACK_PREV_FRAME, PROCESS_STACK_PTBASE, PROCESS_STACK_PTSIZE,
    PROCESS_STACK_PTBITS, PROCESS_STACK_ISR, PROCESS_STACK_IAR, PROCESS_STACK_FREG,
    PROCESS_STACK_IREG, PROCESS_STACK_FRAME_SIZE]

section

variable {Pid : Type} [DecidableEq Pid] {L : Layout Pid} {s s' : State Pid} {q : Pid}
  {pte start : Word} {count : Nat} {m : dlx.Machine}

/-- `ProcessFork` made a user process with the PCB of `q`, and its system stack in
a page that nobody else uses. What it writes to other places is left open. -/
structure Forks (L : Layout Pid) (s : State Pid) (q : Pid) (A : StackPage) (pte start : Word)
    (count : Nat) (m : dlx.Machine) : Prop where
  mode : SystemMode s.m
  mode_after : SystemMode m
  unused : s.procs q = none
  keeps : Keeps L s m
  kernel : ∀ a, A.area.Owns a → a ≠ L.currentPCB ∧
    ∀ r, ∀ o < sizeofPCB, a ≠ L.pcb r + BitVec.ofNat 32 o
  apart : ∀ p P, s.procs p = some P → ∀ a, A.area.Owns a → ¬ P.area.Owns a
  writes : ∀ a, A.area.Owns a ∨ a = L.pcb q ∨ a = L.pcb q + sysStackPtr →
    m.mem a = updates s.m.mem (forkStores (L.pcb q) pte start A count) a

/-- The new process has one frame. -/
def forkedState (s : State Pid) (q : Pid) (A : StackPage) (m : dlx.Machine) : State Pid :=
  ⟨m, update s.procs q (some ⟨A.area, [A.saved m.mem]⟩)⟩

omit [DecidableEq Pid] in
/-- A word of the frame after the fork. -/
theorem Forks.word (h : Forks L s q A pte start count m) (hi : i < PROCESS_STACK_FRAME_SIZE) :
    m.mem (A.word i) =
      updates (fun i => s.m.mem (A.word i)) (frameStores (L.pcb q) start count) i := by
  have hpcb := (h.kernel _ (A.owns hi)).2 q
  rw [h.writes _ (.inl (A.owns hi)), forkStores, updates_append,
    updates_map fun x hx he => (word_inj hi (frameStores_lt x hx)).mp he]
  refine updates_congr (updates_of_not_mem ?_)
  simp only [pcbStores, List.forall_mem_cons, List.not_mem_nil, false_imp_iff, implies_true,
    and_true]
  exact ⟨hpcb 160 (by decide), hpcb 96 (by decide), hpcb 8 (by decide), hpcb 4 (by decide),
    by simpa using hpcb 0 (by decide)⟩

omit [DecidableEq Pid] in
/-- Both pointers of the PCB are to the frame. -/
theorem Forks.pointers (h : Forks L s q A pte start count m) :
    m.mem (L.pcb q) = A.stackframe ∧ m.mem (L.pcb q + sysStackPtr) = A.stackframe := by
  have hframe : ∀ x ∈ (frameStores (L.pcb q) start count).map fun x => (A.word x.1, x.2),
      L.pcb q ≠ x.1 ∧ L.pcb q + sysStackPtr ≠ x.1 := by
    intro x hx
    obtain ⟨y, hy, rfl⟩ := List.mem_map.mp hx
    have hpcb := (h.kernel _ (A.owns (frameStores_lt y hy))).2 q
    exact ⟨fun he => hpcb 0 (by decide) (by simp [he]), fun he => hpcb 4 (by decide) he.symm⟩
  have hnodup : ((pcbStores (L.pcb q) pte A).map (·.1)).Nodup := by
    simp [pcbStores, npages, pagetable, sysStackArea, sysStackPtr]
  rw [h.writes _ (.inr (.inl rfl)), h.writes _ (.inr (.inr rfl)), forkStores, updates_append,
    updates_of_not_mem fun x hx => (hframe x hx).1, updates_of_not_mem fun x hx => (hframe x hx).2]
  exact ⟨updates_of_mem hnodup (by simp [pcbStores]), updates_of_mem hnodup (by simp [pcbStores])⟩

/-- What `ProcessFork` writes is the frame of a process that has yet to start. -/
theorem Forks.step (h : Forks L s q A pte start count m) :
    Step L s (.fork q) (forkedState s q A m) := by
  refine .fork h.mode h.mode_after h.unused h.keeps ⟨rfl, ?_, A.holds m.mem, h.pointers.1,
    h.pointers.2, fun a ha => ?_, h.apart⟩
  · unfold Saved.Nested
    have hisr : (A.saved m.mem).regs.special .isr = PROCESS_INIT_ISR_USER := by
      change m.mem (A.word PROCESS_STACK_ISR) = _
      rw [h.word (by decide)]
      rfl
    rw [hisr]
    decide
  · obtain ⟨hcur, hpcb⟩ := h.kernel a ha
    rintro (he | ⟨r, he | he⟩)
    · exact hcur he
    · exact hpcb r 0 (by decide) (by simpa using he)
    · exact hpcb r 4 (by decide) he

end

/-! ## The first process of a run -/

namespace twoProcesses

def page : StackPage := ⟨0x10000, by decide⟩

end twoProcesses

end dlxos.context
