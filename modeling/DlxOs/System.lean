-- What the kernel is for: processes that take turns, and sleep on the
-- waiting queues of semaphores, locks and condition variables. Queues are
-- lists of processes here, and there is no memory, no link and no interrupt
-- level. A step gives nothing where the simulation ends.
import DlxOs.Machine

namespace dlxos

open Function

/-- The place at which a process stopped in the kernel. -/
inductive Stop where
  | semWait (s : SemId)
  | lockAcquire (l : LockId)
  | condWait (c : CondId)
  /-- In the acquire that ends a wait on a condition variable. -/
  | condAcquire (c : CondId)
deriving DecidableEq

/-- What a call comes to. -/
inductive Result where
  | returns (value : Int)
  | sleeps (stop : Stop)
deriving DecidableEq

/-- The call in which a process is stopped. -/
def Result.stop (c : Call) : Result → Option (Call × Stop)
  | .returns _ => none
  | .sleeps stop => some (c, stop)

/-- The call that returned, with its value. -/
def Result.value (c : Call) : Result → Return
  | .returns v => some (c, v)
  | .sleeps _ => none

structure System where
  queue : KQueue → List Pid
  sems : SemId → Sem
  locks : LockId → Lock
  conds : CondId → Cond
  stopped : Pid → Option (Call × Stop)

/-- The process leaves queue `q`, and becomes the last one of queue `r`. -/
def moveLast (Q : KQueue → List Pid) (p : Pid) (q r : KQueue) : KQueue → List Pid :=
  let Q := update Q q ((Q q).erase p)
  update Q r (Q r ++ [p])

namespace System

/-- The process that runs. -/
def current (a : System) : Option Pid := (a.queue .runQueue).head?

@[simps -fullyApplied] def setQueue (a : System) (q : KQueue) (ps : List Pid) : System :=
  { a with queue := update a.queue q ps }

@[simps -fullyApplied] def setSem (a : System) (s : SemId) (v : Sem) : System :=
  { a with sems := update a.sems s v }

@[simps -fullyApplied] def setLock (a : System) (l : LockId) (v : Lock) : System :=
  { a with locks := update a.locks l v }

@[simps -fullyApplied] def setCond (a : System) (c : CondId) (v : Cond) : System :=
  { a with conds := update a.conds c v }

@[simps -fullyApplied] def setStopped (a : System) (p : Pid) (v : Option (Call × Stop)) : System :=
  { a with stopped := update a.stopped p v }

@[simps -fullyApplied] def move (a : System) (p : Pid) (q r : KQueue) : System :=
  { a with queue := moveLast a.queue p q r }

/-- The first process of a waiting queue becomes runnable. -/
def wake (a : System) (q : KQueue) : System :=
  match a.queue q with
  | [] => a
  | p :: ps => (a.setQueue q ps).move p .waitQueue .runQueue

/-- The process leaves the run queue, and waits on `q`. -/
def slept (a : System) (p : Pid) (q : KQueue) : System :=
  (a.setQueue q (a.queue q ++ [p])).move p .runQueue .waitQueue

/-- The running process goes to sleep, and the next one runs, if there is
one. -/
def sleep (a : System) (p : Pid) (q : KQueue) (stop : Stop) : Option (System × Result) :=
  if (a.slept p q).queue .runQueue = [] then none else some (a.slept p q, .sleeps stop)

/-! ### The waiting queues -/

section

variable {a : System} {p : Pid} {q r s : KQueue}

theorem move_waiting (hq : q.isProc = true) (hr : r.isProc = true) (hs : s.isProc = false) :
    (a.move p q r).queue s = a.queue s := by
  have h1 : s ≠ q := by rintro rfl; simp [hq] at hs
  have h2 : s ≠ r := by rintro rfl; simp [hr] at hs
  simp [moveLast, h1, h2]

@[simp] theorem wake_sems : (a.wake q).sems = a.sems := by unfold wake; split <;> rfl
@[simp] theorem wake_locks : (a.wake q).locks = a.locks := by unfold wake; split <;> rfl
@[simp] theorem wake_conds : (a.wake q).conds = a.conds := by unfold wake; split <;> rfl
@[simp] theorem wake_stopped : (a.wake q).stopped = a.stopped := by unfold wake; split <;> rfl

theorem wake_waiting (hs : s.isProc = false) :
    (a.wake q).queue s = update a.queue q (a.queue q).tail s := by
  unfold wake
  split
  · rename_i h
    rw [h, List.tail_nil, ← h, update_eq_self]
  · rename_i h
    rw [move_waiting rfl rfl hs, setQueue_queue, h, List.tail_cons]

theorem setQueue_run (hq : q.isProc = false) (ps : List Pid) :
    (a.setQueue q ps).queue .runQueue = a.queue .runQueue := by
  have : KQueue.runQueue ≠ q := by rintro rfl; cases hq
  simp [this]

/-- The process that wakes up becomes the last one of the run queue. -/
theorem wake_run (hq : q.isProc = false) :
    (a.wake q).queue .runQueue = a.queue .runQueue ++ (a.queue q).head?.toList := by
  unfold wake
  split
  · rename_i h
    simp [h]
  · rename_i p ps h
    rw [move_queue, moveLast, update_self, update_of_ne (by simp), setQueue_run hq, h]
    rfl

theorem slept_run (hq : q.isProc = false) :
    (a.slept p q).queue .runQueue = (a.queue .runQueue).erase p := by
  rw [slept, move_queue, moveLast, update_of_ne (by simp), update_self, setQueue_run hq]

@[simp] theorem slept_sems : (a.slept p q).sems = a.sems := rfl
@[simp] theorem slept_locks : (a.slept p q).locks = a.locks := rfl
@[simp] theorem slept_conds : (a.slept p q).conds = a.conds := rfl
@[simp] theorem slept_stopped : (a.slept p q).stopped = a.stopped := rfl

theorem slept_waiting (hs : s.isProc = false) :
    (a.slept p q).queue s = update a.queue q (a.queue q ++ [p]) s := by
  rw [slept, move_waiting rfl rfl hs, setQueue_queue]

end

/-! ## Semaphores -/

def semCreate (a : System) (count : Int) : System × Result :=
  match firstUnused fun s => (a.sems s).inuse with
  | none => (a, .returns SYNC_FAIL)
  | some s => (a.setSem s ⟨toInt32 count, true⟩, .returns s)

def semWait (a : System) (p : Pid) (s : SemId) : Option (System × Result) :=
  let n := (a.sems s).count
  if n ≤ 0 then a.sleep p (.sem s) (.semWait s)
  else some (a.setSem s { a.sems s with count := toInt32 (n - 1) }, .returns SYNC_SUCCESS)

def semSignal (a : System) (s : SemId) : System :=
  let n := toInt32 ((a.sems s).count + 1)
  if 0 < n ∧ a.queue (.sem s) ≠ [] then
    (a.wake (.sem s)).setSem s { a.sems s with count := toInt32 (n - 1) }
  else a.setSem s { a.sems s with count := n }

/-! ## Locks -/

def lockCreate (a : System) : System × Result :=
  match firstUnused fun l => (a.locks l).inuse with
  | none => (a, .returns SYNC_FAIL)
  | some l => (a.setLock l ⟨-1, true⟩, .returns l)

def lockAcquire (a : System) (p : Pid) (l : LockId) (stop : Stop) : Option (System × Result) :=
  if (a.locks l).pid = (p : Int) then some (a, .returns SYNC_SUCCESS)
  else if 0 ≤ (a.locks l).pid then a.sleep p (.lock l) stop
  else some (a.setLock l { a.locks l with pid := p }, .returns SYNC_SUCCESS)

/-- The owner gives the lock to the first process that waits for it. -/
def lockGive (a : System) (l : LockId) : System :=
  match a.queue (.lock l) with
  | [] => a.setLock l { a.locks l with pid := -1 }
  | p :: _ => (a.wake (.lock l)).setLock l { a.locks l with pid := p }

def lockRelease (a : System) (p : Pid) (l : LockId) : System × Result :=
  if (a.locks l).pid = (p : Int) then (a.lockGive l, .returns SYNC_SUCCESS)
  else (a, .returns SYNC_FAIL)

/-! ## Condition variables -/

def condCreate (a : System) (lock : LockId) : System × Result :=
  match firstUnused fun c => (a.conds c).inuse with
  | none => (a, .returns INVALID_COND)
  | some c => (a.setCond c ⟨lock, true⟩, .returns c)

/-- The simulation ends where the caller does not own the lock. -/
def condWait (a : System) (p : Pid) (c : CondId) : Option (System × Result) :=
  let l := (a.conds c).lock
  if (a.locks l).pid = (p : Int) then
    (if (a.locks l).inuse then a.lockGive l else a).sleep p (.cond c) (.condWait c)
  else none

def condSignal (a : System) (p : Pid) (c : CondId) : System × Result :=
  if (a.locks (a.conds c).lock).pid = (p : Int) then (a.wake (.cond c), .returns SYNC_SUCCESS)
  else (a, .returns SYNC_FAIL)

def wakeAll (q : KQueue) : Nat → System → System
  | 0, a => a
  | n + 1, a => wakeAll q n (a.wake q)

section

variable {a : System} {q s : KQueue}

@[simp] theorem wakeAll_locks (n : Nat) : (wakeAll q n a).locks = a.locks := by
  induction n generalizing a with
  | zero => rfl
  | succ n ih => rw [wakeAll, ih, wake_locks]

@[simp] theorem wakeAll_conds (n : Nat) : (wakeAll q n a).conds = a.conds := by
  induction n generalizing a with
  | zero => rfl
  | succ n ih => rw [wakeAll, ih, wake_conds]

@[simp] theorem wakeAll_stopped (n : Nat) : (wakeAll q n a).stopped = a.stopped := by
  induction n generalizing a with
  | zero => rfl
  | succ n ih => rw [wakeAll, ih, wake_stopped]

theorem wakeAll_run (n : Nat) (hq : q.isProc = false) :
    (wakeAll q n a).queue .runQueue = a.queue .runQueue ++ (a.queue q).take n := by
  induction n generalizing a with
  | zero => simp [wakeAll]
  | succ n ih =>
    rw [wakeAll, ih, wake_run hq, wake_waiting hq, update_self]
    rcases a.queue q with _ | ⟨p, ps⟩ <;> simp

theorem wakeAll_waiting (n : Nat) (hs : s.isProc = false) :
    (wakeAll q n a).queue s = update a.queue q ((a.queue q).drop n) s := by
  induction n generalizing a with
  | zero => simp [wakeAll]
  | succ n ih =>
    rw [wakeAll, ih]
    by_cases h : s = q
    · subst h
      simp [wake_waiting hs]
    · simp [h, wake_waiting hs]

end

def condBroadcast (a : System) (p : Pid) (c : CondId) : System × Result :=
  if (a.locks (a.conds c).lock).pid = (p : Int) then
    (wakeAll (.cond c) (a.queue (.cond c)).length a, .returns SYNC_SUCCESS)
  else (a, .returns SYNC_FAIL)

/-! ## One step -/

/-- The object that a handle names, if it was created. -/
def sem? (a : System) (handle : Int) : Option SemId :=
  (slot? MAX_SEMS handle).filter fun s => (a.sems s).inuse

def lock? (a : System) (handle : Int) : Option LockId :=
  (slot? MAX_LOCKS handle).filter fun l => (a.locks l).inuse

def cond? (a : System) (handle : Int) : Option CondId :=
  (slot? MAX_CONDS handle).filter fun c => (a.conds c).inuse

/-- A call by process `p`. The results of the calls for shared pages are not
described here: `v` stands for them. -/
def call (a : System) (p : Pid) (v : Int) : Call → Option (System × Result)
  | .semCreate count => some (a.semCreate count)
  | .semWait h => (a.sem? h).elim (some (a, .returns SYNC_FAIL)) (a.semWait p)
  | .semSignal h => (a.sem? h).elim (some (a, .returns SYNC_FAIL))
      fun s => some (a.semSignal s, .returns SYNC_SUCCESS)
  | .lockCreate => some a.lockCreate
  | .lockAcquire h => (a.lock? h).elim (some (a, .returns SYNC_FAIL))
      fun l => a.lockAcquire p l (.lockAcquire l)
  | .lockRelease h => (a.lock? h).elim (some (a, .returns SYNC_FAIL))
      fun l => some (a.lockRelease p l)
  | .condCreate h => (slot? MAX_LOCKS h).elim (some (a, .returns INVALID_COND))
      fun l => some (a.condCreate l)
  | .condWait h => (a.cond? h).elim (some (a, .returns SYNC_FAIL)) (a.condWait p)
  | .condSignal h => (a.cond? h).elim (some (a, .returns SYNC_FAIL))
      fun c => some (a.condSignal p c)
  | .condBroadcast h => (a.cond? h).elim (some (a, .returns SYNC_FAIL))
      fun c => some (a.condBroadcast p c)
  | .shareCreatePage | .shareMapPage _ => some (a, .returns v)

/-- The rest of a call after a sleep. -/
def afterSleep (a : System) (p : Pid) : Stop → Option (System × Result)
  | .semWait _ | .lockAcquire _ | .condAcquire _ => some (a, .returns SYNC_SUCCESS)
  | .condWait c =>
    let l := (a.conds c).lock
    if (a.locks l).inuse then a.lockAcquire p l (.condAcquire c)
    else some (a, .returns SYNC_SUCCESS)

/-- Notes what a call came to. -/
def finish (p : Pid) (call : Call) (x : System × Result) : System × Return :=
  (x.1.setStopped p (x.2.stop call), x.2.value call)

def step (a : System) (v : Int) : Event → Option (System × Return)
  | .timer | .contextSwitch => match a.queue .runQueue with
    | [] => none
    | p :: _ => some (a.move p .runQueue .runQueue, none)
  -- the scheduler moves the front of the queue to the end, after the current
  -- process has left it
  | .exit => match a.queue .runQueue with
    | p :: q :: _ => some ((a.move p .runQueue .freepcbs).move q .runQueue .runQueue, none)
    | _ => none
  | .fork isUser loads => match a.queue .freepcbs with
    | [] => none
    | p :: _ =>
      if isUser && !loads then some (a.move p .freepcbs .freepcbs, none)
      else some (a.move p .freepcbs .runQueue, none)
  | .call c => match a.queue .runQueue with
    | [] => none
    | p :: _ => (a.call p v c).map (finish p c)
  | .resume => match a.queue .runQueue with
    | [] => none
    | p :: _ => match a.stopped p with
      | none => none
      | some (c, stop) => (a.afterSleep p stop).map (finish p c)

/-- The events that may come, as for the machine. -/
def Ready (a : System) : Event → Prop
  | .timer => a.current ≠ none
  | .contextSwitch | .exit | .call _ => ∃ p, a.current = some p ∧ a.stopped p = none
  | .fork _ _ => ∀ p, a.current = some p → a.stopped p = none
  | .resume => ∃ p, a.current = some p ∧ a.stopped p ≠ none

end System

/-! ## The system that a machine shows -/

def Sleep.stop : Sleep → Stop
  | .semWait s _ => .semWait s
  | .lockAcquire l _ => .lockAcquire l
  | .condWait c _ => .condWait c
  | .condAcquire c _ => .condAcquire c

def Outcome.result : Outcome → Result
  | .returns v => .returns v
  | .sleeps place => .sleeps place.stop

/-- Each queue is read as the kernel reads it, from its first link on. -/
def Machine.system (m : Machine) : System where
  queue q := m.kernel.qs.store.objects (.client q)
  sems := m.kernel.sems
  locks := m.kernel.locks
  conds := m.kernel.conds
  stopped p := (m.frames p).map fun f => (f.call, f.place.stop)

end dlxos
