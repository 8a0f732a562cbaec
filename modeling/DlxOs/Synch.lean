-- The semaphores, locks and condition variables of `synch.c`. A routine that
-- puts its caller to sleep stops there: `Outcome.sleeps` keeps the place and
-- the local variables with which the caller goes on when it runs again.
import DlxOs.Process

namespace dlxos

open Function

/-- A place in `synch.c` just after a call of `ProcessSleep`, with the
interrupt level that each active call has kept in `intrval`. -/
inductive Sleep where
  | semWait (s : SemId) (intrval : Level)
  | lockAcquire (l : LockId) (intrval : Level)
  | condWait (c : CondId) (intrval : Level)
  /-- In the `LockHandleAcquire` that ends `CondWait`. -/
  | condAcquire (c : CondId) (intrval : Level)
deriving DecidableEq

/-- What a call of a routine comes to. -/
inductive Outcome where
  | returns (value : Int)
  | sleeps (place : Sleep)
deriving DecidableEq

/-- An `int` after overflow. -/
def toInt32 (n : Int) : Int := n.bmod (2 ^ 32)

/-- The table entry that a handle names. -/
def slot? (max : Nat) (handle : Int) : Option (Fin max) :=
  if handle < 0 then none
  else if h : handle.toNat < max then some ⟨handle.toNat, h⟩
  else none

theorem slot?_eq_some {max : Nat} {handle : Int} {i : Fin max} :
    slot? max handle = some i ↔ handle = i.val := by
  have := i.isLt
  unfold slot?
  split
  · simp only [reduceCtorEq, false_iff]
    omega
  · split
    · rw [Option.some.injEq, Fin.ext_iff]
      simp only
      omega
    · simp only [reduceCtorEq, false_iff]
      omega

@[simp] theorem slot?_val {max : Nat} (i : Fin max) : slot? max (i.val : Int) = some i :=
  slot?_eq_some.mpr rfl

/-- The first entry of a table that is not in use. -/
def firstUnused {max : Nat} (inuse : Fin max → Bool) : Option (Fin max) :=
  (List.finRange max).find? fun i => !inuse i

theorem firstUnused_some {max : Nat} {inuse : Fin max → Bool} {i : Fin max}
    (h : firstUnused inuse = some i) : inuse i = false := by
  simpa using List.find?_some h

def GetCurrentPid : K Pid := do
  let k ← K.read
  deref k.currentPCB

/-- `trap #0x410`: `dointerrupt` suspends the current process and picks the
next one. -/
def ProcessSleep : K Unit := do
  let pcb ← GetCurrentPid
  ProcessSuspend pcb
  ProcessSchedule true

/-- `AQueueAllocLink(currentPCB)` and `AQueueInsertLast` on a waiting queue. -/
def waitOn (q : KQueue) (noLink noInsert : String) : K Unit := do
  let pcb ← GetCurrentPid
  let l ← K.queue (AQueueAllocLink pcb)
  if l = none then exitsim noLink
  let r ← K.queue (AQueueInsertLast (.client q) l)
  if r ≠ QUEUE_SUCCESS then exitsim noInsert

/-- Takes the first process off a waiting queue. -/
def takeFirst (q : KQueue) (noRemove : String) : K Pid := do
  let pcb ← firstObject q
  let r ← K.queue fun s =>
    let (r, _, s) := AQueueRemove (AQueueFirst (.client q) s) s
    (r, s)
  if r ≠ QUEUE_SUCCESS then exitsim noRemove
  return pcb

/-! ## Semaphores -/

def setSem (s : SemId) (f : Sem → Sem) : K Unit :=
  K.share fun k => { k with sems := update k.sems s (f (k.sems s)) }

def SemInit (s : SemId) (count : Int) : K Int := do
  let _ ← K.queue (AQueueInit (.client (.sem s)))
  setSem s fun m => { m with count }
  return SYNC_SUCCESS

def SemCreate (count : Int) : K Int := do
  let intrval ← DisableIntrs
  let k ← K.read
  match firstUnused fun s => (k.sems s).inuse with
  | none =>
    let _ ← RestoreIntrs intrval
    return SYNC_FAIL
  | some s =>
    setSem s fun m => { m with inuse := true }
    let _ ← RestoreIntrs intrval
    let _ ← SemInit s count
    return s

def SemWait (s : SemId) : K Outcome := do
  let intrval ← DisableIntrs
  let k ← K.read
  if (k.sems s).count ≤ 0 then
    waitOn (.sem s) "FATAL ERROR: could not allocate link for semaphore queue in SemWait!"
      "FATAL ERROR: could not insert new link into semaphore waiting queue in SemWait!"
    ProcessSleep
    -- the counter is not decremented here, `SemSignal` does that
    return .sleeps (.semWait s intrval)
  else
    setSem s fun m => { m with count := toInt32 (m.count - 1) }
    let _ ← RestoreIntrs intrval
    return .returns SYNC_SUCCESS

def SemHandleWait (sem : Int) : K Outcome := do
  let k ← K.read
  match slot? MAX_SEMS sem with
  | none => return .returns SYNC_FAIL
  | some s => if (k.sems s).inuse then SemWait s else return .returns SYNC_FAIL

def SemSignal (s : SemId) : K Outcome := do
  let intrs ← DisableIntrs
  setSem s fun m => { m with count := toInt32 (m.count + 1) }
  let k ← K.read
  if 0 < (k.sems s).count then
    if !(← queueEmpty (.sem s)) then
      let pcb ← takeFirst (.sem s)
        "FATAL ERROR: could not remove link from semaphore queue in SemSignal!"
      ProcessWakeup pcb
      -- on behalf of the process that was woken
      setSem s fun m => { m with count := toInt32 (m.count - 1) }
  let _ ← RestoreIntrs intrs
  return .returns SYNC_SUCCESS

def SemHandleSignal (sem : Int) : K Outcome := do
  let k ← K.read
  match slot? MAX_SEMS sem with
  | none => return .returns SYNC_FAIL
  | some s => if (k.sems s).inuse then SemSignal s else return .returns SYNC_FAIL

/-! ## Locks -/

def setLock (l : LockId) (f : Lock → Lock) : K Unit :=
  K.share fun k => { k with locks := update k.locks l (f (k.locks l)) }

def LockInit (l : LockId) : K Int := do
  let _ ← K.queue (AQueueInit (.client (.lock l)))
  setLock l fun k => { k with pid := -1 }
  return SYNC_SUCCESS

def LockCreate : K Int := do
  let intrval ← DisableIntrs
  let k ← K.read
  match firstUnused fun l => (k.locks l).inuse with
  | none =>
    let _ ← RestoreIntrs intrval
    return SYNC_FAIL
  | some l =>
    setLock l fun k => { k with inuse := true }
    let _ ← RestoreIntrs intrval
    let _ ← LockInit l
    return l

def LockAcquire (l : LockId) : K Outcome := do
  let intrval ← DisableIntrs
  let pid ← GetCurrentPid
  let k ← K.read
  if (k.locks l).pid = (pid : Int) then
    let _ ← RestoreIntrs intrval
    return .returns SYNC_SUCCESS
  if 0 ≤ (k.locks l).pid then
    waitOn (.lock l) "FATAL ERROR: could not allocate link for lock queue in LockAcquire!"
      "FATAL ERROR: could not insert new link into lock waiting queue in LockAcquire!"
    ProcessSleep
    return .sleeps (.lockAcquire l intrval)
  setLock l fun k => { k with pid }
  let _ ← RestoreIntrs intrval
  return .returns SYNC_SUCCESS

def LockHandleAcquire (lock : Int) : K Outcome := do
  let k ← K.read
  match slot? MAX_LOCKS lock with
  | none => return .returns SYNC_FAIL
  | some l => if (k.locks l).inuse then LockAcquire l else return .returns SYNC_FAIL

def LockRelease (l : LockId) : K Outcome := do
  let intrs ← DisableIntrs
  let pid ← GetCurrentPid
  let k ← K.read
  if (k.locks l).pid ≠ (pid : Int) then
    -- the interrupts stay disabled here
    return .returns SYNC_FAIL
  setLock l fun k => { k with pid := -1 }
  if !(← queueEmpty (.lock l)) then
    let pcb ← takeFirst (.lock l)
      "FATAL ERROR: could not remove link from lock queue in LockRelease!"
    setLock l fun k => { k with pid := pcb }
    ProcessWakeup pcb
  let _ ← RestoreIntrs intrs
  return .returns SYNC_SUCCESS

def LockHandleRelease (lock : Int) : K Outcome := do
  let k ← K.read
  match slot? MAX_LOCKS lock with
  | none => return .returns SYNC_FAIL
  | some l => if (k.locks l).inuse then LockRelease l else return .returns SYNC_FAIL

/-! ## Condition variables -/

def setCond (c : CondId) (f : Cond → Cond) : K Unit :=
  K.share fun k => { k with conds := update k.conds c (f (k.conds c)) }

def CondInit (c : CondId) : K Int := do
  let _ ← K.queue (AQueueInit (.client (.cond c)))
  return SYNC_SUCCESS

def CondCreate (lock : Int) : K Int := do
  match slot? MAX_LOCKS lock with
  | none => return INVALID_COND
  | some lock =>
    let intrval ← DisableIntrs
    let k ← K.read
    match firstUnused fun c => (k.conds c).inuse with
    | none =>
      let _ ← RestoreIntrs intrval
      return INVALID_COND
    | some c =>
      setCond c fun _ => { lock, inuse := true }
      let _ ← RestoreIntrs intrval
      let _ ← CondInit c
      return c

def CondWait (c : CondId) : K Outcome := do
  let intrval ← DisableIntrs
  let pid ← GetCurrentPid
  let k ← K.read
  let lock := (k.conds c).lock
  if (k.locks lock).pid ≠ (pid : Int) then
    exitsim "FATAL ERROR: The clock related to current cond has not been acquired in CondWait!"
  waitOn (.cond c) "FATAL ERROR: could not allocate link for cond var queue in CondWait!"
    "FATAL ERROR: could not insert new link into cond waiting queue in CondWait!"
  let _ ← LockHandleRelease (lock : Nat)
  ProcessSleep
  return .sleeps (.condWait c intrval)

def CondHandleWait (cond : Int) : K Outcome := do
  let k ← K.read
  match slot? MAX_CONDS cond with
  | none => return .returns SYNC_FAIL
  | some c => if (k.conds c).inuse then CondWait c else return .returns SYNC_FAIL

def CondSignal (c : CondId) : K Outcome := do
  let intrs ← DisableIntrs
  let pid ← GetCurrentPid
  let k ← K.read
  if (k.locks (k.conds c).lock).pid ≠ (pid : Int) then
    printf "ERROR: The clock related to current cond has not been acquired in CondWait!\n"
    -- the interrupts stay disabled here
    return .returns SYNC_FAIL
  if !(← queueEmpty (.cond c)) then
    let pcb ← takeFirst (.cond c)
      "FATAL ERROR: could not remove link from conditional variable queue in CondSignal!"
    ProcessWakeup pcb
  let _ ← RestoreIntrs intrs
  return .returns SYNC_SUCCESS

def CondHandleSignal (cond : Int) : K Outcome := do
  let k ← K.read
  match slot? MAX_CONDS cond with
  | none => return .returns SYNC_FAIL
  | some c => if (k.conds c).inuse then CondSignal c else return .returns SYNC_FAIL

/-- The loop of `CondBroadcast`. Each turn takes one link off the queue, so
the fuel only has to pass the number of links. -/
def wakeAll (c : CondId) : Nat → K Unit
  | 0 => K.halt .hang
  | fuel + 1 => do
    if ← queueEmpty (.cond c) then return ()
    let pcb ← takeFirst (.cond c)
      "FATAL ERROR: could not remove link from conditional variable queue in CondSignal!"
    ProcessWakeup pcb
    wakeAll c fuel

def CondBroadcast (c : CondId) : K Outcome := do
  let intrs ← DisableIntrs
  let pid ← GetCurrentPid
  let k ← K.read
  if (k.locks (k.conds c).lock).pid ≠ (pid : Int) then
    printf "ERROR: The clock related to current cond has not been acquired in CondWait!\n"
    -- the interrupts stay disabled here
    return .returns SYNC_FAIL
  wakeAll c (QUEUE_MAX_LINKS + 1)
  let _ ← RestoreIntrs intrs
  return .returns SYNC_SUCCESS

def CondHandleBroadcast (cond : Int) : K Outcome := do
  let k ← K.read
  match slot? MAX_CONDS cond with
  | none => return .returns SYNC_FAIL
  | some c => if (k.conds c).inuse then CondBroadcast c else return .returns SYNC_FAIL

/-! ## After a sleep -/

/-- The rest of a call, once its process runs again. -/
def afterSleep : Sleep → K Outcome
  | .semWait _ intrval => do
    let _ ← RestoreIntrs intrval
    return .returns SYNC_SUCCESS
  | .lockAcquire _ intrval => do
    let _ ← RestoreIntrs intrval
    return .returns SYNC_SUCCESS
  | .condWait c intrval => do
    let _ ← RestoreIntrs intrval
    let k ← K.read
    match ← LockHandleAcquire ((k.conds c).lock : Nat) with
    | .sleeps (.lockAcquire _ intrval) => return .sleeps (.condAcquire c intrval)
    | _ => return .returns SYNC_SUCCESS
  | .condAcquire _ intrval => do
    let _ ← RestoreIntrs intrval
    return .returns SYNC_SUCCESS

/-- The static tables start out as zeros, and only the semaphores are set
again. -/
def SynchModuleInit : K Int := do
  K.write fun k => { k with sems := fun s => { k.sems s with inuse := false } }
  return SYNC_SUCCESS

end dlxos
