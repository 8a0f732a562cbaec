-- The processes of a running system and the frames on their system stacks:
-- interrupts and traps push frames, `_intrreturn` pops them, and other
-- processes run in between. Every process is a user process: the calls of
-- `ProcessFork` that ask for a system process are in routines of `sysproc.c`
-- that nothing starts.
import DlxOs.Context

namespace dlxos.context

open Function dlx

/-! ## The system -/

/-- Where the kernel keeps `currentPCB` and the PCBs. The first word of a PCB is
`currentSavedFrame`, the second `sysStackPtr`. -/
structure Layout (Pid : Type) where
  currentPCB : Word
  pcb : Pid → Word
  pcb_ne : ∀ p q, p ≠ q → pcb p ≠ pcb q ∧ pcb p ≠ pcb q + 4
  currentPCB_ne : ∀ p, currentPCB ≠ pcb p ∧ currentPCB ≠ pcb p + 4

/-- The system stack of a process, up to the end of its first frame. -/
structure Area where
  low : Word
  home : Word
  low_le : low.toNat ≤ home.toNat
  fits : home.toNat + 340 ≤ 2 ^ 32

/-- A frame that has been pushed: its address, the registers it holds, and the
`currentSavedFrame` before it. -/
structure Saved where
  base : Word
  regs : Cpu
  prev : Word

/-- The frames of a process, the current one first. -/
structure Proc where
  area : Area
  saved : List Saved

structure State (Pid : Type) where
  m : Machine
  procs : Pid → Option Proc

/-- What the hardware stores at an interrupt or a trap. -/
structure Latch where
  iar : Word
  cause : Word
  fault : Word
  status : Word

inductive Event (Pid : Type) where
  | user
  | kernel
  | interrupt (p : Pid) (t : Latch)
  | switch (q : Pid)
  | setResult (q : Pid) (v : Word)
  /-- `q` has mapped a shared page, or one of its shared pages was freed. -/
  | setPtsize (q : Pid) (npages : Word)
  | intrreturn (p : Pid)
  | fork (q : Pid)
  | exit (q : Pid)

def SystemMode (m : Machine) : Prop := m.cpu.special .status &&& SYSMODE ≠ 0

instance (m : Machine) : Decidable (SystemMode m) := inferInstanceAs (Decidable (_ ≠ _))

/-- The old `r31` goes to `ir31`, and the old status to `isr`. -/
def latch (m : Machine) (t : Latch) : Machine :=
  m.setSpecial [(.ir31, m.cpu.r 31), (.isr, m.cpu.special .status), (.iar, t.iar),
    (.cause, t.cause), (.fault, t.fault), (.status, t.status)]

def Area.Owns (A : Area) (a : Word) : Prop :=
  A.low.toNat ≤ a.toNat ∧ a.toNat < A.home.toNat + 340

namespace Saved

def words (x : Saved) : List (Word × Word) := frameWords x.regs x.prev

/-- The memory holds the frame. -/
def Holds (x : Saved) (mem : Word → Word) : Prop := ∀ w ∈ x.words, mem (x.base + w.1) = w.2

/-- The frame belongs to code in system mode. -/
def Nested (x : Saved) : Prop := x.regs.special .isr &&& SYSMODE ≠ 0

instance (x : Saved) : Decidable x.Nested := inferInstanceAs (Decidable (_ ≠ _))

def setResult (v : Word) (x : Saved) : Saved :=
  { x with regs := { x.regs with r := update x.regs.r 1 v } }

def setPtsize (v : Word) (x : Saved) : Saved :=
  { x with regs := { x.regs with special := update x.regs.special .ptsize v } }

end Saved

/-- The number of pages in the outermost frame. -/
def Proc.setPtsize (v : Word) (P : Proc) : Proc :=
  { P with saved := P.saved.map fun x => if x.base = P.area.home then x.setPtsize v else x }

section System

variable {Pid : Type}

/-- The words of memory that belong to the frames of `p`. -/
def Proc.Words (L : Layout Pid) (p : Pid) (P : Proc) (a : Word) : Prop :=
  a = L.pcb p ∨ a = L.pcb p + 4 ∨ ∃ x ∈ P.saved, ∃ w ∈ x.words, a = x.base + w.1

def Layout.Kernel (L : Layout Pid) (a : Word) : Prop :=
  a = L.currentPCB ∨ ∃ q, a = L.pcb q ∨ a = L.pcb q + 4

/-- The code in between leaves the frames alone. What it stores in them is an
event of its own. -/
def Keeps (L : Layout Pid) (s : State Pid) (m : Machine) : Prop :=
  m.mem L.currentPCB = s.m.mem L.currentPCB ∧
    ∀ p P, s.procs p = some P → ∀ a, P.Words L p a → m.mem a = s.m.mem a

/-- A handler that traps again has the stack pointer below its own frame, and
the stack has room for one more. -/
def Room (L : Layout Pid) (p : Pid) (A : Area) (m : Machine) : Prop :=
  A.low.toNat + 340 ≤ (m.get 29).toNat ∧ (m.get 29).toNat ≤ (m.mem (L.pcb p)).toNat

def push (L : Layout Pid) (e : Machine) (P : Proc) : Proc :=
  { P with saved := ⟨entryStack L.currentPCB e - 340, entered e, e.mem (e.mem L.currentPCB)⟩ ::
      P.saved }

/-- What `ProcessFork` makes for `q`: a stack apart from all others, and on it
the frame of a user process that has yet to start. -/
structure Forked (L : Layout Pid) (s : State Pid) (q : Pid) (A : Area) (x : Saved)
    (m : Machine) : Prop where
  base : x.base = A.home
  user : ¬ x.Nested
  holds : x.Holds m.mem
  frame : m.mem (L.pcb q) = A.home
  stack : m.mem (L.pcb q + 4) = A.home
  kernel : ∀ a, A.Owns a → ¬ L.Kernel a
  apart : ∀ p P, s.procs p = some P → ∀ a, A.Owns a → ¬ P.area.Owns a

variable [DecidableEq Pid]

inductive Step (L : Layout Pid) : State Pid → Event Pid → State Pid → Prop where
  | user {s m'} : ¬ SystemMode s.m → m'.cpu.special = s.m.cpu.special → Keeps L s m' →
      Step L s .user { s with m := m' }
  | kernel {s m'} : SystemMode s.m → SystemMode m' → Keeps L s m' →
      Step L s .kernel { s with m := m' }
  | interrupt {s p P t} : s.m.mem L.currentPCB = L.pcb p → s.procs p = some P →
      t.status &&& SYSMODE ≠ 0 → (SystemMode s.m → Room L p P.area s.m) →
      Step L s (.interrupt p t) ⟨intrhandler L.currentPCB (latch s.m t),
        update s.procs p (some (push L (latch s.m t) P))⟩
  | switch {s q Q} : SystemMode s.m → s.procs q = some Q →
      Step L s (.switch q) { s with m := s.m.store [(L.currentPCB, L.pcb q)] }
  | setResult {s q v Q} : SystemMode s.m → s.procs q = some Q →
      Step L s (.setResult q v) ⟨ProcessSetResult (L.pcb q) v s.m,
        update s.procs q (some { Q with saved := Q.saved.modifyHead (Saved.setResult v) })⟩
  | setPtsize {s q v Q} : SystemMode s.m → s.procs q = some Q →
      Step L s (.setPtsize q v) ⟨storePtsize Q.area.home v s.m,
        update s.procs q (some (Q.setPtsize v))⟩
  | intrreturn {s p P} : SystemMode s.m → s.m.mem L.currentPCB = L.pcb p → s.procs p = some P →
      Step L s (.intrreturn p) ⟨intrreturn L.currentPCB s.m,
        update s.procs p (some { P with saved := P.saved.tail })⟩
  | fork {s q A x m'} : SystemMode s.m → SystemMode m' → s.procs q = none → Keeps L s m' →
      Forked L s q A x m' →
      Step L s (.fork q) ⟨m', update s.procs q (some ⟨A, [x]⟩)⟩
  | exit {s q Q} : SystemMode s.m → s.procs q = some Q →
      Step L s (.exit q) { s with procs := update s.procs q none }

inductive Run (L : Layout Pid) : State Pid → List (Event Pid) → State Pid → Prop where
  | nil {s} : Run L s [] s
  | snoc {s s' s'' tr x} : Run L s tr s' → Step L s' x s'' → Run L s (tr ++ [x]) s''

/-- The kernel has been loaded, and no process exists. -/
def Booted (s : State Pid) : Prop := SystemMode s.m ∧ ∀ p, s.procs p = none

/-! ## What a process does to one of its frames -/

/-- How many frames of `p` are above the one to follow, and the last result
stored there while it was the current frame; nothing once it has been popped. No
number of pages is stored for `p` meanwhile. -/
def track1 (p : Pid) : Nat × Option Word → Event Pid → Option (Nat × Option Word)
  | (d, r), .interrupt q _ => some (if q = p then d + 1 else d, r)
  | (d, r), .intrreturn q => if q = p then if d = 0 then none else some (d - 1, r) else some (d, r)
  | (d, r), .setResult q v => some (d, if q = p ∧ d = 0 then some v else r)
  | x, .setPtsize q _ => if q = p then none else some x
  | x, .fork q => if q = p then none else some x
  | x, .exit q => if q = p then none else some x
  | x, _ => some x

def track (p : Pid) (tr : List (Event Pid)) : Option (Nat × Option Word) :=
  tr.foldlM (track1 p) (0, none)

/-- What was stored in a frame since it was pushed. -/
structure Stored where
  result : Option Word
  ptsize : Option Word

/-- The same with the number of pages, which goes to the `outermost` frame. -/
def follow1 (p : Pid) (outermost : Bool) : Nat × Stored → Event Pid → Option (Nat × Stored)
  | (d, r), .interrupt q _ => some (if q = p then d + 1 else d, r)
  | (d, r), .intrreturn q => if q = p then if d = 0 then none else some (d - 1, r) else some (d, r)
  | (d, r), .setResult q v => some (d, if q = p ∧ d = 0 then { r with result := some v } else r)
  | (d, r), .setPtsize q v => some (d, if q = p ∧ outermost then { r with ptsize := some v } else r)
  | x, .fork q => if q = p then none else some x
  | x, .exit q => if q = p then none else some x
  | x, _ => some x

def follow (p : Pid) (outermost : Bool) (tr : List (Event Pid)) : Option (Nat × Stored) :=
  tr.foldlM (follow1 p outermost) (0, ⟨none, none⟩)

end System

end dlxos.context
