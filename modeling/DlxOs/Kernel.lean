-- The static variables of the kernel, and the small language in which its
-- routines are written: they read and write these variables, and they may
-- end the simulation.
import DlxOs.Queue
import DlxOs.Memory

namespace dlxos

open Function

def PROCESS_MAX_PROCS : Nat := 32
def MAX_SEMS : Nat := 32
def MAX_LOCKS : Nat := 64
def MAX_CONDS : Nat := 32
def MEMORY_MAX_SHARED_PAGES : Nat := 32

def SYNC_FAIL : Int := -1
def SYNC_SUCCESS : Int := 1
def INVALID_COND : Int := -1

instance : NeZero PROCESS_MAX_PROCS := ⟨by decide⟩
instance : NeZero MAX_SEMS := ⟨by decide⟩
instance : NeZero MAX_LOCKS := ⟨by decide⟩
instance : NeZero MAX_CONDS := ⟨by decide⟩

/-- A process number: the place of a PCB in the array `pcbs`. -/
abbrev Pid := Fin PROCESS_MAX_PROCS
abbrev SemId := Fin MAX_SEMS
abbrev LockId := Fin MAX_LOCKS
abbrev CondId := Fin MAX_CONDS

/-- The interrupt level in the status register. -/
abbrev Level := Fin 16

instance Level.neZero : NeZero 16 := ⟨by decide⟩

def PROCESS_STATUS_FREE : Word := 0x1#32
def PROCESS_STATUS_RUNNABLE : Word := 0x2#32
def PROCESS_STATUS_WAITING : Word := 0x4#32
def PROCESS_STATUS_ZOMBIE : Word := 0x10#32
def PROCESS_STATUS_MASK : Word := 0x3f#32
def PROCESS_TYPE_SYSTEM : Word := 0x100#32
def PROCESS_TYPE_USER : Word := 0x200#32

/-- The queues of `process.c`, and the waiting queue of each object of
`synch.c`. -/
inductive KQueue where
  | freepcbs
  | runQueue
  | waitQueue
  | zombieQueue
  | sem (s : SemId)
  | lock (l : LockId)
  | cond (c : CondId)
deriving DecidableEq

/-- The queues of `process.c`. -/
def KQueue.isProc : KQueue → Bool
  | .freepcbs | .runQueue | .waitQueue | .zombieQueue => true
  | .sem _ | .lock _ | .cond _ => false

@[simp] theorem KQueue.isProc_sem (s : SemId) : (KQueue.sem s).isProc = false := by
  simp only [isProc]
@[simp] theorem KQueue.isProc_lock (l : LockId) : (KQueue.lock l).isProc = false := by
  simp only [isProc]
@[simp] theorem KQueue.isProc_cond (c : CondId) : (KQueue.cond c).isProc = false := by
  simp only [isProc]

/-- The queues, with the field `l` of each PCB. -/
structure Queues where
  store : Store KQueue Pid
  link : Pid → Option LinkId

structure Sem where
  count : Int
  inuse : Bool
deriving DecidableEq

structure Lock where
  pid : Int
  inuse : Bool
deriving DecidableEq

/-- The field `lock` is written only by `CondCreate`, past its range check. -/
structure Cond where
  lock : LockId
  inuse : Bool
deriving DecidableEq

/-- An entry of the table of shared pages: the page, or 0, and one bit for
each process that maps it. -/
structure SharedPage where
  page : Nat
  procs : Word

structure Kernel where
  qs : Queues
  pcbs : Pid → PCB
  currentPCB : Option Pid
  sems : SemId → Sem
  locks : LockId → Lock
  conds : CondId → Cond
  mem : Memory
  spages : Fin MEMORY_MAX_SHARED_PAGES → SharedPage
  intrs : Level
  /-- Raised when a shared structure is written while interrupts are not
  disabled. The kernel does not read it. -/
  exposed : Bool
  /-- The lines that `printf` wrote, other than debugging output. -/
  console : List String

/-- Why a run of the kernel goes no further. -/
inductive Halt where
  /-- The kernel wrote the line, given without its newline, and called `exitsim`. -/
  | exitsim (line : String)
  /-- A NULL pointer was followed, or an array was read past its end. -/
  | crash
  /-- A loop never ends. -/
  | hang
deriving DecidableEq

/-! ## The language -/

/-- A routine of the kernel. -/
def K (α : Type) : Type := Kernel → Except Halt (α × Kernel)

namespace K

variable {α β : Type}

instance : Monad K where
  pure a := fun k => .ok (a, k)
  bind x f := fun k => match x k with
    | .ok (a, k') => f a k'
    | .error e => .error e

def read : K Kernel := fun k => .ok (k, k)
def write (f : Kernel → Kernel) : K Unit := fun k => .ok ((), f k)
def halt (e : Halt) : K α := fun _ => .error e

theorem pure_run (a : α) (k : Kernel) : (pure a : K α) k = .ok (a, k) := rfl
theorem read_run (k : Kernel) : read k = .ok (k, k) := rfl
theorem write_run (f : Kernel → Kernel) (k : Kernel) : write f k = .ok ((), f k) := rfl
theorem halt_run (e : Halt) (k : Kernel) : (halt e : K α) k = .error e := rfl

theorem bind_ok {x : K α} {f : α → K β} {k j : Kernel} {a : α} (h : x k = .ok (a, j)) :
    (x >>= f) k = f a j := by
  change (match x k with | .ok (a, j) => f a j | .error e => .error e) = f a j
  rw [h]

theorem bind_error {x : K α} {f : α → K β} {k : Kernel} {e : Halt} (h : x k = .error e) :
    (x >>= f) k = .error e := by
  change (match x k with | .ok (a, k') => f a k' | .error e => .error e) = .error e
  rw [h]

theorem bind_run (x : K α) (f : α → K β) (k : Kernel) :
    (x >>= f) k = match x k with
      | .ok (a, k') => f a k'
      | .error e => .error e := rfl

theorem ite_run (c : Prop) [Decidable c] (x y : K α) (k : Kernel) :
    (if c then x else y) k = if c then x k else y k := by
  split <;> rfl

theorem bind_eq_ok {x : K α} {f : α → K β} {k : Kernel} {r : β × Kernel}
    (h : (x >>= f) k = .ok r) : ∃ a k', x k = .ok (a, k') ∧ f a k' = .ok r := by
  rw [bind_run] at h
  split at h
  · exact ⟨_, _, ‹_›, h⟩
  · cases h

end K

def exitsim {α : Type} (line : String) : K α := K.halt (.exitsim line)

def printf (line : String) : K Unit := K.write fun k => { k with console := k.console ++ [line] }

/-- The value of a pointer that is not NULL. -/
def deref {α : Type} : Option α → K α
  | some a => pure a
  | none => K.halt .crash

/-! ## Interrupts -/

/-- Sets the interrupt level, and gives the former one. -/
def SetIntrs (level : Level) : K Level := fun k => .ok (k.intrs, { k with intrs := level })

def DisableIntrs : K Level := SetIntrs 15
def RestoreIntrs (intrs : Level) : K Level := SetIntrs intrs

/-- A write of a structure that interrupt handlers share. -/
def K.share (f : Kernel → Kernel) : K Unit :=
  K.write fun k => f { k with exposed := k.exposed || k.intrs != 15 }

end dlxos
