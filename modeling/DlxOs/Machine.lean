-- The kernel as a whole: `dointerrupt` of `traps.c`, the processes that
-- sleep inside the kernel, and the runs of the machine. One step is one
-- entry of the kernel, up to its return to a process or to its
-- `ProcessSleep`.
import DlxOs.Synch

namespace dlxos

open Function

/-- A trap of a running process, with its argument. -/
inductive Call where
  | semCreate (count : Int)
  | semWait (sem : Int)
  | semSignal (sem : Int)
  | lockCreate
  | lockAcquire (lock : Int)
  | lockRelease (lock : Int)
  | condCreate (lock : Int)
  | condWait (cond : Int)
  | condSignal (cond : Int)
  | condBroadcast (cond : Int)
  | shareCreatePage
  | shareMapPage (handle : Nat)
deriving DecidableEq

/-- What makes the machine enter the kernel. -/
inductive Event where
  | timer
  | contextSwitch
  | exit
  /-- `isUser` and the result of the loader, see `ProcessFork`. -/
  | fork (isUser loads : Bool)
  | call (c : Call)
  /-- The current process goes on after a `ProcessSleep`. -/
  | resume
deriving DecidableEq

/-- An entry of the kernel, with the interrupt level of that moment. -/
structure Entry where
  event : Event
  level : Level

/-- A process stopped in `ProcessSleep`: the call that it made, the place, and
the interrupt level that its saved frame holds. -/
structure Frame where
  call : Call
  place : Sleep
  level : Level

structure Machine where
  kernel : Kernel
  frames : Pid → Option Frame

/-- `TRAP_EXIT` -/
def exitTrap : K Unit := do
  ProcessDestroy (← GetCurrentPid)
  ProcessSchedule false

def returning (x : K Int) : K Outcome := do return .returns (← x)

/-- The cases of `dointerrupt` that call a routine and give its result. The
count of a new semaphore is a 32 bit number. -/
def trap : Call → K Outcome
  | .semCreate count => returning (SemCreate (toInt32 count))
  | .semWait sem => SemHandleWait sem
  | .semSignal sem => SemHandleSignal sem
  | .lockCreate => returning LockCreate
  | .lockAcquire lock => LockHandleAcquire lock
  | .lockRelease lock => LockHandleRelease lock
  | .condCreate lock => returning (CondCreate lock)
  | .condWait cond => CondHandleWait cond
  | .condSignal cond => CondHandleSignal cond
  | .condBroadcast cond => CondHandleBroadcast cond
  | .shareCreatePage => do returning (MemoryCreateSharedPage (← GetCurrentPid))
  | .shareMapPage handle => do returning (mmap (← GetCurrentPid) handle)

/-- The result of a step: the call that returned in it, with its value. -/
abbrev Return := Option (Call × Int)

/-- Ends a call: either its result is stored for the process, or the process
is left asleep. -/
def Machine.finish (m : Machine) (pcb : Pid) (call : Call) (out : Outcome) (k : Kernel) :
    Except Halt (Machine × Return) :=
  match out with
  | .returns v => do
    let (_, k) ← ProcessSetResult pcb v k
    return (⟨k, update m.frames pcb none⟩, some (call, v))
  | .sleeps place => return (⟨k, update m.frames pcb (some ⟨call, place, k.intrs⟩)⟩, none)

/-- One entry of the kernel. -/
def Machine.step (m : Machine) (e : Entry) : Except Halt (Machine × Return) :=
  let k := { m.kernel with intrs := e.level }
  match e.event with
  | .timer | .contextSwitch => do
    let (_, k) ← ProcessSchedule false k
    return ({ m with kernel := k }, none)
  | .exit => do
    let (_, k) ← exitTrap k
    return ({ m with kernel := k }, none)
  | .fork isUser loads => do
    let (_, k) ← ProcessFork isUser loads k
    return ({ m with kernel := k }, none)
  | .call c => do
    let (pcb, k) ← GetCurrentPid k
    let (out, k) ← trap c k
    m.finish pcb c out k
  | .resume => do
    let (pcb, k) ← GetCurrentPid k
    let (frame, k) ← deref (m.frames pcb) k
    let (out, k) ← afterSleep frame.place { k with intrs := frame.level }
    m.finish pcb frame.call out k

/-- The kernel can be entered this way. Before the first process, only `main`
runs, and it only forks. A process that stopped in the kernel goes on there
before it does anything else, but the timer may come first. -/
def Machine.Ready (m : Machine) (e : Entry) : Prop :=
  match e.event with
  | .timer => m.kernel.currentPCB ≠ none
  | .contextSwitch | .exit | .call _ =>
    ∃ p, m.kernel.currentPCB = some p ∧ m.frames p = none
  | .fork _ _ => ∀ p, m.kernel.currentPCB = some p → m.frames p = none
  | .resume => ∃ p, m.kernel.currentPCB = some p ∧ m.frames p ≠ none

/-! ## The start -/

/-- The size of the memory, and the first address past the kernel. -/
structure Boot where
  memsize : Nat
  lastosaddress : Nat
  memsize_lt : memsize < 2 ^ 31
  os_ge : 8 ≤ lastosaddress
  os_lt : lastosaddress < 2 ^ 31 - MEMORY_PAGE_SIZE

/-- Static memory before `main`: all zeros. -/
def zeroKernel : Kernel where
  qs := {
    store := ⟨fun _ => none, fun _ => none, fun _ => none, fun _ => none, fun _ => none,
      fun _ => none, fun _ => 0⟩
    link := fun _ => none }
  pcbs := fun _ => ⟨0, 0, fun _ => 0, 0, 0⟩
  currentPCB := none
  sems := fun _ => ⟨0, false⟩
  locks := fun _ => ⟨0, false⟩
  conds := fun _ => ⟨0, false⟩
  mem := ⟨0, 0, 0, fun _ => 0, 0⟩
  spages := fun _ => ⟨0, 0⟩
  intrs := 0
  exposed := false
  console := []

/-- The part of `main` that sets up the modules. -/
def startModules (b : Boot) : K Unit := do
  let _ ← K.queue AQueueModuleInit
  K.write fun k => { k with mem := MemoryModuleInit b.memsize b.lastosaddress k.mem }
  ProcessModuleInit
  K.write fun k => { k with spages := fun _ => ⟨0, 0⟩ }
  let _ ← SynchModuleInit
  return ()

/-- The machine before its first process. -/
def boot (b : Boot) : Except Halt Machine := do
  let (_, k) ← startModules b zeroKernel
  return ⟨k, fun _ => none⟩

end dlxos
