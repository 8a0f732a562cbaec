-- How the simulation ends. Each entry of the kernel goes on, or it ends the
-- simulation in a way that the queues and the free pages say beforehand: with
-- a line, or in a search for a page that never ends.
import DlxOs.Exec

namespace dlxos

open Function runs

variable {α β : Type} {k : Kernel} {m m' : Machine} {a d : System} {p : Pid} {q : KQueue}
  {Q : KQueue → List Pid} {e : Entry} {x : Halt} {c : Call} {o : Option Halt}

/-! ## Why it ends -/

def sleepersWait : Halt :=
  .exitsim "FATAL ERROR: no runnable processes, but there are sleeping processes waiting!"

def noRunnable : Halt := .exitsim "No runnable processes - exiting!"

def noFreeProcess : Halt := .exitsim "FATAL error: no free processes!"

def lockNotAcquired : Halt :=
  .exitsim
    "FATAL ERROR: The clock related to current cond has not been acquired in CondWait!"

namespace System

/-- The process that runs goes to sleep. It may be the last one. -/
def sleepEnding (a : System) : Option Halt :=
  if (a.queue .runQueue).tail = [] then some sleepersWait else none

/-- Another process owns the lock. -/
def acquireEnding (a : System) (p : Pid) (l : LockId) : Option Halt :=
  if (a.locks l).pid ≠ (p : Int) ∧ 0 ≤ (a.locks l).pid then a.sleepEnding else none

/-- The lock goes to a process that waits for it, which runs then. -/
def waitEnding (a : System) (p : Pid) (c : CondId) : Option Halt :=
  let l := (a.conds c).lock
  if (a.locks l).pid = (p : Int) then
    if (a.locks l).inuse ∧ a.queue (.lock l) ≠ [] then none else a.sleepEnding
  else some lockNotAcquired

def callEnding (a : System) (p : Pid) : Call → Option Halt
  | .semWait h => (a.sem? h).bind fun s => if (a.sems s).count ≤ 0 then a.sleepEnding else none
  | .lockAcquire h => (a.lock? h).bind (a.acquireEnding p)
  | .condWait h => (a.cond? h).bind (a.waitEnding p)
  | _ => none

def resumeEnding (a : System) (p : Pid) : Stop → Option Halt
  | .condWait c =>
    let l := (a.conds c).lock
    if (a.locks l).inuse then a.acquireEnding p l else none
  | .semWait _ | .lockAcquire _ | .condAcquire _ => none

/-- The process that runs exits. -/
def exitEnding (a : System) : Option Halt :=
  if (a.queue .runQueue).tail = [] then
    some (if a.queue .waitQueue = [] then noRunnable else sleepersWait)
  else none

end System

/-- An allocation that finds no page ends with the line. -/
def pageEnding (line : String) (mem : Memory) (next : Memory → Option Halt) : Option Halt :=
  match MemoryAllocPage mem with
  | none => some .hang
  | some (page, mem) => if page = 0 then some (.exitsim line) else next mem

/-- A new process takes two pages. -/
def forkEnding (mem : Memory) : Option Halt :=
  pageEnding "aFATAL: couldn't allocate memory - no free pages!" mem
    (pageEnding "bFATAL: couldn't allocate system stack - no free pages!" · fun _ => none)

/-- How an event ends the simulation, if it does. -/
def Machine.ending (m : Machine) : Event → Option Halt
  | .timer | .contextSwitch => none
  | .exit => m.system.exitEnding
  | .fork _ _ =>
    if m.queue .freepcbs = [] then some noFreeProcess else forkEnding m.kernel.mem
  | .call .shareCreatePage => m.system.current.bind fun p =>
    if (m.kernel.pcbs p).npages = PAGETABLE_SIZE then none
    else (findShared m.kernel 0).bind fun _ =>
      pageEnding "FATAL: couldn't allocate memory - no free pages!" m.kernel.mem fun _ => none
  | .call c => m.system.current.bind fun p => m.system.callEnding p c
  | .resume => m.system.current.bind fun p =>
    (m.system.stopped p).bind fun s => m.system.resumeEnding p s.2

/-! ## The routines -/

/-- A routine ends in the given way, or it comes to a result. -/
def EndsAs {α : Type} (r : Except Halt α) : Option Halt → Prop
  | none => ∃ y, r = .ok y
  | some x => r = .error x

theorem EndsAs.ok {r : Except Halt α} {y : α} (h : r = .ok y) : EndsAs r none := ⟨y, h⟩

/-- What follows a routine comes to a result. -/
theorem EndsAs.andThen {r : Except Halt α} {f : α → Except Halt β} (h : EndsAs r o)
    (hf : ∀ y, r = .ok y → EndsAs (f y) none) : EndsAs (r >>= f) o := by
  cases o with
  | none =>
    obtain ⟨y, rfl⟩ := h
    exact hf y rfl
  | some x =>
    obtain rfl : r = .error x := h
    rfl

theorem EndsAs.bind {y : K α} {f : α → K β} (h : EndsAs (y k) o)
    (hf : ∀ v k', y k = .ok (v, k') → EndsAs (f v k') none) : EndsAs ((y >>= f) k) o := by
  cases o with
  | none =>
    obtain ⟨⟨v, k'⟩, hy⟩ := h
    rw [K.bind_ok hy]
    exact hf v k' hy
  | some x => exact K.bind_error h

theorem Meets.ends {r : Except Halt (Outcome × Kernel)} {o : Option (System × Result)}
    (h : Meets k r o) (ho : o ≠ none) : EndsAs r none := by
  rcases o with _ | ⟨b, res⟩
  · exact absurd rfl ho
  · obtain ⟨out, k', hr, _⟩ := h
    exact .ok hr

/-- The line that the scheduler writes where nobody can run. -/
theorem ProcessSchedule.ends (h : Rep k.qs Q) (hr : Q .runQueue = []) (suspendFlag : Bool) :
    ProcessSchedule suspendFlag k =
      .error (if Q .waitQueue = [] then noRunnable else sleepersWait) := by
  rw [ProcessSchedule, K.bind_ok (queueEmpty_run h _), hr]
  simp only [List.isEmpty_nil, if_true]
  rw [K.bind_ok (queueEmpty_run h _)]
  by_cases hw : Q .waitQueue = []
  · simp [hw, K.bind_run, exitsim, K.halt_run, noRunnable]
  · simp [hw, K.bind_run, exitsim, K.halt_run, sleepersWait]

theorem BeforeSleep.ends (h : BeforeSleep k d p) (place : Sleep) :
    EndsAs ((do ProcessSleep; return .sleeps place : K Outcome) k) d.sleepEnding := by
  obtain ⟨ps, hq⟩ := current_cons h.current
  have hrest : (d.move p .runQueue .waitQueue).queue .runQueue = ps := by simp [moveLast, hq]
  unfold System.sleepEnding
  rw [hq, List.tail_cons]
  by_cases hlast : ps = []
  · obtain ⟨home, waits, hpl⟩ := h.placed
    obtain ⟨k1, hrun, hsim, _⟩ := ProcessSuspend.sim h.sim hpl
      ((hpl.mem_proc rfl p).mp (by simp [hq]))
    -- the process itself waits now
    have hwait : (d.move p .runQueue .waitQueue).queue .waitQueue ≠ [] := by simp [moveLast]
    have hend := ProcessSchedule.ends hsim.rep (hrest.trans hlast) true
    rw [if_neg hwait] at hend
    rw [if_pos hlast]
    refine K.bind_error ?_
    rw [ProcessSleep, K.bind_ok (GetCurrentPid_run h.pcb), K.bind_ok hrun, hend]
  · rw [if_neg hlast]
    exact (h.meets place rfl).ends (by rw [hrest, if_neg hlast]; simp)

theorem sleepOn.ends {place : Sleep} (h : Runs k a p) (hw : q.isProc = false)
    (hm : k.intrs = 15) (noLink noInsert : String) :
    EndsAs ((do
      waitOn q noLink noInsert
      ProcessSleep
      return .sleeps place : K Outcome) k) a.sleepEnding := by
  obtain ⟨k1, hrun, hbefore, _⟩ := waitOn.before h hw hm noLink noInsert
  have hends := hbefore.ends place
  unfold System.sleepEnding at hends ⊢
  rw [System.setQueue_run hw] at hends
  rw [K.bind_ok hrun]
  exact hends

theorem SemWait.ends (h : Runs k a p) (s : SemId) :
    EndsAs (SemWait s k) (if (a.sems s).count ≤ 0 then a.sleepEnding else none) := by
  have h' := h.withIntrs 15
  by_cases hn : (a.sems s).count ≤ 0
  · rw [SemWait, DisableIntrs, K.bind_ok (SetIntrs_run 15 k), K.bind_ok (K.read_run _),
      h'.sim.sems, if_pos hn, if_pos hn]
    exact sleepOn.ends h' rfl rfl _ _
  · rw [if_neg hn]
    exact (SemWait.meets h s).ends (by simp [System.semWait, hn])

theorem LockAcquire.ends (h : Runs k a p) (l : LockId) :
    EndsAs (LockAcquire l k) (a.acquireEnding p l) := by
  have h' := h.withIntrs 15
  unfold System.acquireEnding
  by_cases hp : (a.locks l).pid ≠ (p : Int) ∧ 0 ≤ (a.locks l).pid
  · rw [LockAcquire, DisableIntrs, K.bind_ok (SetIntrs_run 15 k),
      K.bind_ok (GetCurrentPid_run h'.pcb), K.bind_ok (K.read_run _), h'.sim.locks, if_neg hp.1,
      if_pos hp.2, if_pos hp]
    exact sleepOn.ends h' rfl rfl _ _
  · rw [if_neg hp]
    refine (LockAcquire.meets h l rfl).ends ?_
    unfold System.lockAcquire
    rw [not_and, not_le] at hp
    split
    · simp
    · rw [if_neg (by have := hp ‹_›; omega)]
      simp

theorem CondWait.ends (h : Runs k a p) (c : CondId) :
    EndsAs (CondWait c k) (a.waitEnding p c) := by
  have h' := h.withIntrs 15
  simp only [System.waitEnding]
  by_cases hp : (a.locks (a.conds c).lock).pid = (p : Int)
  · obtain ⟨d, k2, hd, hrun, hbefore, _⟩ := CondWait.before h rfl hp
    have hends := hbefore.ends (.condWait c k.intrs)
    unfold System.sleepEnding at hends
    rw [System.setQueue_run rfl] at hends
    rw [hrun, if_pos hp]
    by_cases hw : (a.locks (a.conds c).lock).inuse = true ∧ a.queue (.lock (a.conds c).lock) ≠ []
    · -- the process that was handed the lock runs
      obtain ⟨ps, hq⟩ := current_cons h.current
      obtain ⟨r, rs, hr⟩ := List.exists_cons_of_ne_nil hw.2
      rw [if_pos hw.1] at hd
      rw [hd, lockGive_run, hq, hr] at hends
      simp only [List.cons_append, List.tail_cons, List.head?_cons, Option.toList_some,
        List.append_eq_nil_iff, List.cons_ne_self, and_false, if_false] at hends
      rw [if_pos hw]
      exact hends
    · have hsame : d.queue .runQueue = a.queue .runQueue := by
        rw [hd]
        split
        · rename_i hi
          have hnil : a.queue (.lock (a.conds c).lock) = [] := by
            by_contra hne
            exact hw ⟨hi, hne⟩
          rw [lockGive_run, hnil]
          simp
        · rfl
      rw [if_neg hw]
      unfold System.sleepEnding
      rw [← hsame]
      exact hends
  · rw [CondWait, DisableIntrs, K.bind_ok (SetIntrs_run 15 k),
      K.bind_ok (GetCurrentPid_run h'.pcb), K.bind_ok (K.read_run _), h'.sim.conds, h'.sim.locks,
      if_neg hp]
    simp only [ne_eq, hp, not_false_eq_true, if_true]
    rfl

/-- A wrapper that checks a handle. -/
theorem EndsAs.handle {max : Nat} {h : Int} (inuse : Fin max → Bool) {f : Fin max → K Outcome}
    {g : Fin max → Option Halt} {y : K Outcome} (hf : ∀ j, EndsAs (f j k) (g j))
    (hy : y k = (slot? max h).elim (pure (.returns SYNC_FAIL) : K Outcome)
      (fun j => if inuse j then f j else pure (.returns SYNC_FAIL)) k) :
    EndsAs (y k) (((slot? max h).filter inuse).bind g) := by
  rw [hy]
  rcases slot? max h with _ | j
  · exact .ok rfl
  · by_cases hi : inuse j = true
    · rw [Option.filter_some, if_pos hi]
      simp only [Option.elim, hi, if_true, Option.bind_some]
      exact hf j
    · rw [Option.filter_some, if_neg hi]
      simp only [Option.elim, hi]
      exact .ok rfl

theorem LockHandleAcquire.ends (h : Runs k a p) (lock : Int) :
    EndsAs (LockHandleAcquire lock k) ((a.lock? lock).bind (a.acquireEnding p)) := by
  refine .handle (h := lock) (fun j => (a.locks j).inuse) (LockAcquire.ends h) ?_
  rw [LockHandleAcquire, K.bind_ok (K.read_run _), h.sim.locks]
  cases slot? MAX_LOCKS lock <;> rfl

/-- The calls of `synch.c`. -/
theorem trap.ends (h : Runs k a p) (hc : c.isSync = true) :
    EndsAs (trap c k) (a.callEnding p c) := by
  cases c with
  | semWait h' =>
    refine .handle (h := h') (fun j => (a.sems j).inuse) (SemWait.ends h) ?_
    rw [trap, SemHandleWait, K.bind_ok (K.read_run _), h.sim.sems]
    cases slot? MAX_SEMS h' <;> rfl
  | lockAcquire h' => exact LockHandleAcquire.ends h h'
  | condWait h' =>
    refine .handle (h := h') (fun j => (a.conds j).inuse) (CondWait.ends h) ?_
    rw [trap, CondHandleWait, K.bind_ok (K.read_run _), h.sim.conds]
    cases slot? MAX_CONDS h' <;> rfl
  | semCreate | lockCreate => exact (trap.meets h hc 0).ends (by simp [System.call])
  | condCreate h' =>
    refine (trap.meets h hc 0).ends ?_
    simp only [System.call]
    cases slot? MAX_LOCKS h' <;> simp
  | semSignal h' =>
    refine (trap.meets h hc 0).ends ?_
    simp only [System.call]
    cases a.sem? h' <;> simp
  | lockRelease h' =>
    refine (trap.meets h hc 0).ends ?_
    simp only [System.call]
    cases a.lock? h' <;> simp
  | condSignal h' | condBroadcast h' =>
    refine (trap.meets h hc 0).ends ?_
    simp only [System.call]
    cases a.cond? h' <;> simp
  | shareCreatePage | shareMapPage => cases hc

theorem afterSleep.ends (h : Runs k a p) (place : Sleep) :
    EndsAs (afterSleep place k) (a.resumeEnding p place.stop) := by
  cases place with
  | condWait c intrval =>
    have h' := h.withIntrs intrval
    have hacq := LockHandleAcquire.ends h' ((a.conds c).lock : Nat)
    rw [afterSleep, RestoreIntrs, K.bind_ok (SetIntrs_run intrval k), K.bind_ok (K.read_run _),
      h'.sim.conds]
    simp only [Sleep.stop, System.resumeEnding]
    simp only [System.lock?, slot?_val, Option.filter_some] at hacq
    refine .bind ?_ fun out k1 _ => ?_
    · split
      · rename_i hi
        rw [if_pos hi] at hacq
        exact hacq
      · rename_i hi
        rw [if_neg hi] at hacq
        exact hacq
    · split <;> exact .ok rfl
  | _ => exact .ok rfl

/-! ## Memory -/

theorem allocPage.ends {f : Nat → K β} (line : String) {g : Memory → Option Halt}
    (hf : ∀ page mem, page ≠ 0 → EndsAs (f page { k with mem }) (g mem)) :
    EndsAs ((do
      let page ← allocPage
      if page = 0 then exitsim line
      f page : K β) k) (pageEnding line k.mem g) := by
  unfold pageEnding
  rcases ha : MemoryAllocPage k.mem with _ | ⟨page, mem⟩
  · refine K.bind_error ?_
    rw [allocPage, ha]
  · rw [K.bind_ok (show allocPage k = .ok (page, { k with mem }) by rw [allocPage, ha])]
    by_cases hp : page = 0
    · simp only [hp, if_true]
      rfl
    · simp only [hp, if_false]
      exact hf page mem hp

theorem forkMemory.ends (p : Pid) (k : Kernel) : EndsAs (forkMemory p k) (forkEnding k.mem) := by
  unfold forkMemory
  rw [K.bind_ok (setPcb_run p _ k)]
  refine allocPage.ends _ fun page mem _ => ?_
  rw [K.bind_ok (setPcb_run p _ _)]
  exact allocPage.ends _ fun stack mem' _ => .ok (setPcb_run p _ _)

theorem MemoryCreateSharedPage.ends (p : Pid) (k : Kernel) :
    EndsAs (MemoryCreateSharedPage p k) (if (k.pcbs p).npages = PAGETABLE_SIZE then none
      else (findShared k 0).bind fun _ =>
        pageEnding "FATAL: couldn't allocate memory - no free pages!" k.mem fun _ => none) := by
  unfold MemoryCreateSharedPage
  rw [DisableIntrs, K.bind_ok (SetIntrs_run 15 k), K.bind_ok (K.read_run _)]
  by_cases hn : ((k.withIntrs 15).pcbs p).npages = PAGETABLE_SIZE
  · rw [if_pos hn, if_pos (show (k.pcbs p).npages = PAGETABLE_SIZE from hn)]
    exact .ok rfl
  · rw [if_neg hn, if_neg (show (k.pcbs p).npages ≠ PAGETABLE_SIZE from hn)]
    have hfind : findShared (k.withIntrs 15) 0 = findShared k 0 := rfl
    rw [hfind]
    rcases findShared k 0 with _ | i
    · exact .ok rfl
    · exact allocPage.ends _ fun page mem _ => .ok rfl

/-! ## One step -/

theorem exitTrap.ends (h : Runs k a p) : EndsAs (exitTrap k) a.exitEnding := by
  obtain ⟨home, waits, hsl⟩ := h.sleepers
  obtain ⟨ps, hq⟩ := current_cons h.current
  unfold System.exitEnding
  rw [hq, List.tail_cons]
  rcases ps with _ | ⟨r, rs⟩
  · have hpl := hsl.placed
    obtain ⟨qs, hrun, hrep⟩ := ProcessDestroy.spec h.sim.rep hpl.waitsOnce
      (show p ∈ a.queue .runQueue by simp [hq]) hsl.zombies
    have hend := ProcessSchedule.ends
      (k := (k.withStatus p PROCESS_STATUS_ZOMBIE).relink qs) hrep (by simp [hq]) false
    rw [if_pos rfl]
    change exitTrap k = _
    rw [exitTrap, K.bind_ok (GetCurrentPid_run h.pcb), K.bind_ok hrun, hend]
    simp
  · obtain ⟨_, k', hrun, _⟩ := (exitTrap.sim h.sim hsl h.pcb hq).2 r rs rfl
    exact .ok hrun

theorem ProcessFork.ends {home : Pid → KQueue} {waits : Pid → Option KQueue} (h : Sim k a)
    (hpl : Placed a.queue home waits) (isUser loads : Bool) :
    EndsAs (ProcessFork isUser loads k)
      (if a.queue .freepcbs = [] then some noFreeProcess else forkEnding k.mem) := by
  rcases hq : a.queue .freepcbs with _ | ⟨p, ps⟩
  · exact ProcessFork.nil h.rep hq isUser loads
  · obtain ⟨k0, hf, herr, hok⟩ := ProcessFork.sim h hpl hq isUser loads
    have hmem := forkMemory.ends p k0
    rw [hf.mem] at hmem
    rw [if_neg (by simp)]
    rcases hend : forkEnding k.mem with _ | x
    · rw [hend] at hmem
      obtain ⟨⟨⟨⟩, k1⟩, hk1⟩ := hmem
      have hok := hok k1 hk1
      split at hok
      · obtain ⟨_, _, hrun, _⟩ := hok
        exact .ok hrun
      · obtain ⟨_, hrun, _⟩ := hok
        exact .ok hrun
    · rw [hend] at hmem
      exact herr x hmem

theorem finish_ends (m : Machine) (p : Pid) (c : Call) (out : Outcome) (k : Kernel) :
    EndsAs (m.finish p c out k) none := by
  cases out <;> exact .ok rfl

/-- A call, whichever it is. -/
theorem Good.call_ends (h : Good m) (level : Level) (hp : m.system.current = some p) (c : Call) :
    EndsAs (trap c (m.kernel.withIntrs level)) (m.ending (.call c)) := by
  have hruns := h.runs hp level
  cases c with
  | shareCreatePage =>
    simp only [Machine.ending, hp, Option.bind_some]
    rw [trap, K.bind_ok (GetCurrentPid_run hruns.pcb)]
    exact (MemoryCreateSharedPage.ends p (m.kernel.withIntrs level)).bind fun v k1 _ => .ok rfl
  | shareMapPage handle =>
    simp only [Machine.ending, hp, Option.bind_some, System.callEnding]
    rw [trap, K.bind_ok (GetCurrentPid_run hruns.pcb)]
    obtain ⟨v, k1, hmap, _⟩ := mmap.sim hruns.sim p handle
    exact (EndsAs.ok hmap).bind fun v k1 _ => .ok rfl
  | _ =>
    simp only [Machine.ending, hp, Option.bind_some]
    exact trap.ends hruns rfl

/-- The state of the machine before an entry says how the entry ends the
simulation. -/
theorem Good.step_ends (h : Good m) (hr : m.Ready e) : EndsAs (m.step e) (m.ending e.event) := by
  obtain ⟨home, waits, hsl⟩ := h.inv.sleepers
  have hsim := h.sim.withIntrs e.level
  have hready := (h.ready e).mp hr
  have hcur : ∀ q, m.system.current = some q →
      GetCurrentPid (m.kernel.withIntrs e.level) = .ok (q, m.kernel.withIntrs e.level) :=
    fun q hq => GetCurrentPid_run (h.current.trans hq)
  obtain ⟨event, level⟩ := e
  cases event with
  | timer | contextSwitch =>
    obtain ⟨p, hp⟩ : ∃ p, m.system.current = some p := by
      first
      | exact Option.ne_none_iff_exists'.mp hready
      | exact hready.imp fun _ hp => hp.1
    obtain ⟨ps, hq⟩ := current_cons hp
    obtain ⟨k', hrun, _⟩ := ProcessSchedule.sim hsim hsl.placed hq hsl.zombies
    exact (EndsAs.ok hrun).andThen fun _ _ => .ok rfl
  | exit =>
    obtain ⟨p, hp, _⟩ := hready
    exact (exitTrap.ends (h.runs hp level)).andThen fun _ _ => .ok rfl
  | fork isUser loads =>
    exact (ProcessFork.ends hsim hsl.placed isUser loads).andThen fun _ _ => .ok rfl
  | call c =>
    obtain ⟨p, hp, _⟩ := hready
    have hrun : m.step ⟨.call c, level⟩ = trap c (m.kernel.withIntrs level) >>= fun r =>
        m.finish p c r.1 r.2 := by
      change (GetCurrentPid (m.kernel.withIntrs level) >>= fun _ => _) = _
      rw [hcur p hp]
      rfl
    rw [hrun]
    exact (h.call_ends level hp c).andThen fun v _ => finish_ends m p c v.1 v.2
  | resume =>
    obtain ⟨p, hp, hstop⟩ := hready
    rcases hf : m.frames p with _ | f
    · simp [Machine.system, hf] at hstop
    · have hst : m.system.stopped p = some (f.call, f.place.stop) := by simp [Machine.system, hf]
      have hrun : m.step ⟨.resume, level⟩ =
          afterSleep f.place (m.kernel.withIntrs f.level) >>= fun r =>
            m.finish p f.call r.1 r.2 := by
        change (GetCurrentPid (m.kernel.withIntrs level) >>= fun _ => _) = _
        rw [hcur p hp]
        simp only [bind, Except.bind, hf]
        rfl
      rw [hrun]
      simp only [Machine.ending, hp, Option.bind_some, hst]
      exact (afterSleep.ends (h.runs hp f.level) f.place).andThen
        fun v _ => finish_ends m p f.call v.1 v.2

/-- In every run, an entry of the kernel ends the simulation exactly where the
queues, the objects or the free pages say so, and with the line that they say. -/
theorem step_error_iff (h : Reachable m) (hr : m.Ready e) (x : Halt) :
    m.step e = .error x ↔ m.ending e.event = some x := by
  have hends := h.good.step_ends hr
  rcases hending : m.ending e.event with _ | y
  · rw [hending] at hends
    obtain ⟨v, hv⟩ := hends
    rw [hv]
    simp
  · rw [hending] at hends
    rw [show m.step e = .error y from hends]
    simp

/-- The only process exits. -/
theorem exists_error : ∃ m, Reachable m ∧ m.step ⟨.exit, 0⟩ = .error noRunnable := by
  obtain ⟨m, hm, hq, hwait, hstop⟩ := exists_reachable [.fork true true]
    (fun a => a.queue .runQueue = [31] ∧ a.queue .waitQueue = [] ∧ a.stopped 31 = none)
    (by decide +kernel)
  have hready : m.Ready ⟨.exit, 0⟩ := (hm.good.ready _).mpr ⟨31, current_eq hq, hstop⟩
  refine ⟨m, hm, (step_error_iff hm hready noRunnable).mpr ?_⟩
  simp only [Machine.ending, System.exitEnding, hq, hwait, List.tail_cons, if_true]

end dlxos
