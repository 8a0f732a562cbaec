-- The kernel and the system agree. `Sim k a` says that the queues of the
-- kernel hold the lists of the system, that the status of each process names
-- its home, and that no assertion has failed. Each routine that a sleep or a
-- wakeup is made of keeps the agreement.
import DlxOs.ProcessSpecs
import DlxOs.Steps

namespace dlxos

open Function

/-- The status that names a queue of `process.c`. -/
def KQueue.status : KQueue → Word
  | .freepcbs => PROCESS_STATUS_FREE
  | .runQueue => PROCESS_STATUS_RUNNABLE
  | .waitQueue => PROCESS_STATUS_WAITING
  | .zombieQueue => PROCESS_STATUS_ZOMBIE
  | _ => 0#32

structure Sim (k : Kernel) (a : System) : Prop where
  rep : Rep k.qs a.queue
  sems : k.sems = a.sems
  locks : k.locks = a.locks
  conds : k.conds = a.conds
  status : ∀ q, q.isProc = true → ∀ p ∈ a.queue q,
    (k.pcbs p).flags &&& PROCESS_STATUS_MASK = q.status
  lines : suspendAssertion ∉ k.console ∧ wakeupAssertion ∉ k.console
  pages : PagesOk k fun p => p ∉ a.queue .freepcbs

/-- The memory is as before, and so is the map of each process. -/
structure Frozen (k k' : Kernel) : Prop where
  mem : k'.mem = k.mem
  spages : k'.spages = k.spages
  maps : ∀ p, (k'.pcbs p).npages = (k.pcbs p).npages ∧
    (k'.pcbs p).pagetable = (k.pcbs p).pagetable ∧
    (k'.pcbs p).sysStackArea = (k.pcbs p).sysStackArea

/-- The current process is as before as well, and where interrupts were
disabled, nothing was written without that protection. -/
structure Quiet (k k' : Kernel) : Prop where
  frozen : Frozen k k'
  current : k'.currentPCB = k.currentPCB
  intrs : k'.intrs = k.intrs
  masked : k.intrs = 15 → k'.exposed = k.exposed

variable {k k' k'' : Kernel} {a : System} {p : Pid} {q r : KQueue} {home : Pid → KQueue}
  {waits : Pid → Option KQueue}

theorem Frozen.refl (k : Kernel) : Frozen k k := ⟨rfl, rfl, fun _ => ⟨rfl, rfl, rfl⟩⟩

theorem Frozen.trans (h : Frozen k k') (h' : Frozen k' k'') : Frozen k k'' := by
  refine ⟨h'.mem.trans h.mem, h'.spages.trans h.spages, fun p => ?_⟩
  obtain ⟨h1, h2, h3⟩ := h.maps p
  obtain ⟨h4, h5, h6⟩ := h'.maps p
  exact ⟨h4.trans h1, h5.trans h2, h6.trans h3⟩

theorem Quiet.refl (k : Kernel) : Quiet k k := ⟨.refl k, rfl, rfl, fun _ => rfl⟩

theorem Quiet.trans (h : Quiet k k') (h' : Quiet k' k'') : Quiet k k'' := by
  refine ⟨h.frozen.trans h'.frozen, h'.current.trans h.current, h'.intrs.trans h.intrs, ?_⟩
  intro hm
  rw [h'.masked (h.intrs.trans hm), h.masked hm]

theorem Sim.withIntrs (h : Sim k a) (level : Level) : Sim (k.withIntrs level) a :=
  ⟨h.rep, h.sems, h.locks, h.conds, h.status, h.lines,
    ⟨h.pages.bits, h.pages.shared, h.pages.npages, h.pages.ptes, h.pages.stack⟩⟩

theorem Frozen.withIntrs (k : Kernel) (level : Level) : Frozen k (k.withIntrs level) :=
  ⟨rfl, rfl, fun _ => ⟨rfl, rfl, rfl⟩⟩

theorem Quiet.relink (k : Kernel) (qs : Queues) : Quiet k (k.relink qs) := by
  refine ⟨⟨rfl, rfl, fun _ => ⟨rfl, rfl, rfl⟩⟩, rfl, rfl, fun hm => ?_⟩
  simp [hm]

theorem Quiet.withStatus (k : Kernel) (p : Pid) (w : Word) : Quiet k (k.withStatus p w) := by
  refine ⟨⟨rfl, rfl, fun r => ?_⟩, rfl, rfl, fun _ => rfl⟩
  by_cases hr : r = p
  · subst hr; simp [PCB.withStatus]
  · simp [hr]

theorem Placed.waitsOnce {Q : KQueue → List Pid} (h : Placed Q home waits) : WaitsOnce Q := by
  refine ⟨fun q _ => h.nodup q, fun q r p hq hr hpq hpr => ?_⟩
  rw [h.mem_wait hq] at hpq
  rw [h.mem_wait hr, hpq] at hpr
  exact Option.some.inj hpr

/-! ## Status bits -/

theorem status_set (flags w : Word) (hw : w &&& PROCESS_STATUS_MASK = w) :
    ((flags &&& ~~~PROCESS_STATUS_MASK) ||| w) &&& PROCESS_STATUS_MASK = w := by
  have h0 : ~~~PROCESS_STATUS_MASK &&& PROCESS_STATUS_MASK = 0#32 := by decide
  calc ((flags &&& ~~~PROCESS_STATUS_MASK) ||| w) &&& PROCESS_STATUS_MASK
      = (flags &&& (~~~PROCESS_STATUS_MASK &&& PROCESS_STATUS_MASK)) |||
          (w &&& PROCESS_STATUS_MASK) := by
        rw [← BitVec.and_assoc]
        apply BitVec.eq_of_getLsbD_eq
        intro i _
        simp only [BitVec.getLsbD_and, BitVec.getLsbD_or, Bool.and_or_distrib_right]
    _ = w := by rw [h0, hw]; simp

theorem KQueue.status_mask (q : KQueue) : q.status &&& PROCESS_STATUS_MASK = q.status := by
  cases q <;> first | rfl | exact BitVec.zero_and

/-- A process has the status of its home. -/
theorem hasStatus_of {b : PCB} {w : Word} (h : b.flags &&& PROCESS_STATUS_MASK = w)
    (hw : w &&& PROCESS_STATUS_MASK = w) (hne : w ≠ 0#32) : hasStatus b w = true := by
  have : b.flags &&& w = w := by
    calc b.flags &&& w = b.flags &&& (PROCESS_STATUS_MASK &&& w) := by
          rw [BitVec.and_comm PROCESS_STATUS_MASK, hw]
      _ = w := by rw [← BitVec.and_assoc, h, BitVec.and_self]
  simp [hasStatus, this, hne]

/-- Where one process came to another queue with the status of that queue,
each status names the home of its process. -/
theorem Sim.status_moved {b : System} {waits' : Pid → Option KQueue} (h : Sim k a)
    (hpl : Placed a.queue home waits) (hpl' : Placed b.queue (update home p r) waits')
    (hp : (k'.pcbs p).flags &&& PROCESS_STATUS_MASK = r.status)
    (hne : ∀ p', p' ≠ p → (k'.pcbs p').flags = (k.pcbs p').flags) :
    ∀ q, q.isProc = true → ∀ p' ∈ b.queue q,
      (k'.pcbs p').flags &&& PROCESS_STATUS_MASK = q.status := by
  intro s hs p' hp'
  have hhome := (hpl'.mem_proc hs p').mp hp'
  by_cases hpp : p' = p
  · subst hpp
    obtain rfl : r = s := by simpa using hhome
    exact hp
  · rw [update_of_ne hpp] at hhome
    rw [hne p' hpp]
    exact h.status s hs p' ((hpl.mem_proc hs p').mpr hhome)

/-! ## Moving a process -/

/-- A process came to another queue, with the status of that queue. -/
theorem Sim.moved {qs : Queues} (h : Sim k a) (hpl : Placed a.queue home waits)
    (hp : home p = q) (hr : r.isProc = true) (hrep : Rep qs (moveLast a.queue p q r))
    (hq : q ≠ .freepcbs) (hrf : r ≠ .freepcbs) :
    Sim ((k.withStatus p r.status).relink qs) (a.move p q r) := by
  have hpl' := hpl.move hp hr
  refine ⟨hrep, h.sems, h.locks, h.conds, h.status_moved (p := p) hpl hpl' ?_ ?_, h.lines, ?_⟩
  · simp only [Kernel.relink_pcbs, Kernel.withStatus_pcbs, update_self, PCB.withStatus]
    exact status_set _ _ (KQueue.status_mask r)
  · exact fun p' hpp => by simp [hpp]
  · refine h.pages.congr rfl rfl ?_ ?_
    · intro p'
      by_cases hpp : p' = p
      · subst hpp; simp [PCB.withStatus]
      · simp [hpp]
    · intro p' hp'
      have : moveLast a.queue p q r .freepcbs = a.queue .freepcbs := by
        simp [moveLast, Ne.symm hq, Ne.symm hrf]
      simpa [this] using hp'

/-- `ProcessWakeup` finds a waiting process. -/
theorem ProcessWakeup.sim (h : Sim k a) (hpl : Placed a.queue home waits)
    (hp : home p = .waitQueue) :
    ∃ k', ProcessWakeup p k = .ok ((), k') ∧ Sim k' (a.move p .waitQueue .runQueue) ∧
      Quiet k k' := by
  have hmem := (hpl.mem_proc rfl p).mpr hp
  obtain ⟨qs', hrun, hrep⟩ := ProcessWakeup.spec h.rep hpl.waitsOnce hmem
    (hasStatus_of (h.status .waitQueue rfl p hmem) rfl (by decide))
  exact ⟨_, hrun, h.moved hpl hp rfl hrep (by simp) (by simp),
    (Quiet.withStatus k p _).trans (.relink _ qs')⟩

/-- `ProcessSuspend` finds a runnable process. -/
theorem ProcessSuspend.sim (h : Sim k a) (hpl : Placed a.queue home waits)
    (hp : home p = .runQueue) :
    ∃ k', ProcessSuspend p k = .ok ((), k') ∧ Sim k' (a.move p .runQueue .waitQueue) ∧
      Quiet k k' := by
  have hmem := (hpl.mem_proc rfl p).mpr hp
  obtain ⟨qs', hrun, hrep⟩ := ProcessSuspend.spec h.rep hpl.waitsOnce hmem
    (hasStatus_of (h.status .runQueue rfl p hmem) rfl (by decide))
  exact ⟨_, hrun, h.moved hpl hp rfl hrep (by simp) (by simp),
    (Quiet.withStatus k p _).trans (.relink _ qs')⟩

theorem Sim.withCurrent (h : Sim k a) (c : Option Pid) : Sim (k.withCurrent c) a :=
  ⟨h.rep, h.sems, h.locks, h.conds, h.status, h.lines,
    ⟨h.pages.bits, h.pages.shared, h.pages.npages, h.pages.ptes, h.pages.stack⟩⟩

theorem GetCurrentPid_run (hc : k.currentPCB = some p) : GetCurrentPid k = .ok (p, k) := by
  rw [GetCurrentPid, K.bind_ok (K.read_run k), hc]
  rfl

/-- The running process goes to sleep, and the next one runs. -/
theorem ProcessSleep.sim (h : Sim k a) (hpl : Placed a.queue home waits) {ps : List Pid}
    (hq : a.queue .runQueue = p :: ps) (hc : k.currentPCB = some p)
    (hz : a.queue .zombieQueue = []) :
    (ps = [] → ∃ line, ProcessSleep k = .error (.exitsim line)) ∧
    (ps ≠ [] → ∃ k', ProcessSleep k = .ok ((), k') ∧
      Sim k' (a.move p .runQueue .waitQueue) ∧ k'.currentPCB = ps.head? ∧ Frozen k k' ∧
      k'.intrs = k.intrs ∧ (k.intrs = 15 → k'.exposed = k.exposed)) := by
  have hp : home p = .runQueue := (hpl.mem_proc rfl p).mp (by simp [hq])
  obtain ⟨k1, hrun, hsim, hquiet⟩ := ProcessSuspend.sim h hpl hp
  have hrest : (a.move p .runQueue .waitQueue).queue .runQueue = ps := by
    simp [moveLast, hq]
  have hz' : (a.move p .runQueue .waitQueue).queue .zombieQueue = [] := by
    simpa [moveLast] using hz
  rw [ProcessSleep, K.bind_ok (GetCurrentPid_run hc), K.bind_ok hrun]
  constructor
  · rintro rfl
    exact ProcessSchedule.nil hsim.rep hrest true
  · intro hne
    obtain ⟨c, cs, rfl⟩ := List.exists_cons_of_ne_nil hne
    exact ⟨_, ProcessSchedule.suspended hsim.rep hrest hz', hsim.withCurrent _, rfl,
      ⟨hquiet.frozen.mem, hquiet.frozen.spages, hquiet.frozen.maps⟩, hquiet.intrs,
      hquiet.masked⟩

/-- The running process goes to the end of the queue, and the next one runs. -/
theorem ProcessSchedule.sim (h : Sim k a) (hpl : Placed a.queue home waits) {ps : List Pid}
    (hq : a.queue .runQueue = p :: ps) (hz : a.queue .zombieQueue = []) :
    ∃ k', ProcessSchedule false k = .ok ((), k') ∧ Sim k' (a.move p .runQueue .runQueue) ∧
      k'.currentPCB = (ps ++ [p]).head? ∧ Frozen k k' := by
  have hmem : p ∈ a.queue .runQueue := by simp [hq]
  obtain ⟨qs, hrun, hrep⟩ := ProcessSchedule.rotates h.rep hq
  have hrep' : Rep qs (moveLast a.queue p .runQueue .runQueue) := by
    simpa [moveLast, hq] using hrep
  refine ⟨(k.relink qs).withCurrent (ps ++ [p]).head?, ?_, ?_, rfl,
    ⟨rfl, rfl, fun _ => ⟨rfl, rfl, rfl⟩⟩⟩
  · rw [hrun]
    exact reapZombies.nil (k := (k.relink qs).withCurrent (ps ++ [p]).head?) hrep (by simpa) _
  · refine ⟨hrep', h.sems, h.locks, h.conds, h.status_moved (p := p) hpl
      (hpl.move ((hpl.mem_proc rfl p).mp hmem) rfl) (h.status .runQueue rfl p hmem)
      (fun _ _ => rfl), h.lines, ?_⟩
    exact h.pages.congr rfl rfl (fun _ => ⟨rfl, rfl, rfl⟩) fun p' hp' => by
      simpa [moveLast] using hp'

/-! ## The waiting queues -/

/-- Waiting queues carry no status. -/
theorem Sim.setQueue {qs : Queues} (h : Sim k a) (hq : q.isProc = false) {ps : List Pid}
    (hrep : Rep qs (update a.queue q ps)) : Sim (k.relink qs) (a.setQueue q ps) := by
  have hne : ∀ s, s.isProc = true → s ≠ q := by
    rintro s hs rfl
    rw [hq] at hs
    cases hs
  refine ⟨hrep, h.sems, h.locks, h.conds, ?_, h.lines, ?_⟩
  · intro s hs p hp
    rw [System.setQueue_queue, update_of_ne (hne s hs)] at hp
    exact h.status s hs p hp
  · refine h.pages.congr rfl rfl (fun _ => ⟨rfl, rfl, rfl⟩) ?_
    intro p hp
    rwa [System.setQueue_queue, update_of_ne (hne _ rfl)] at hp

theorem waitOn.sim (h : Sim k a) (hw : WaitsOnce a.queue) (hc : k.currentPCB = some p)
    (hq : q.isProc = false) (noLink noInsert : String) :
    ∃ k', waitOn q noLink noInsert k = .ok ((), k') ∧
      Sim k' (a.setQueue q (a.queue q ++ [p])) ∧ Quiet k k' := by
  obtain ⟨l, s1, hrun1, hold⟩ := h.rep.alloc hw p
  obtain ⟨s2, hrun2, hrep⟩ := (hold k.qs.link fun _ _ _ _ => rfl).insertLast q
    (by rw [hq]; simp)
  refine ⟨k.relink ⟨s2, k.qs.link⟩, ?_, h.setQueue hq hrep, .relink _ _⟩
  rw [waitOn, K.bind_ok (GetCurrentPid_run hc)]
  simp [K.bind_run, K.queue, hrun1, hrun2, K.pure_run, Kernel.relink]

theorem takeFirst.sim (h : Sim k a) (hq : q.isProc = false) {ps : List Pid}
    (hp : a.queue q = p :: ps) (noRemove : String) :
    ∃ k', takeFirst q noRemove k = .ok (p, k') ∧ Sim k' (a.setQueue q ps) ∧ Quiet k k' := by
  obtain ⟨l, s', hfirst, ho, hrun, hrep⟩ := h.rep.removeFirst hp
  refine ⟨k.relink ⟨s', k.qs.link⟩, ?_, h.setQueue hq hrep, .relink _ _⟩
  rw [takeFirst, K.bind_ok (firstObject_run h.rep hp)]
  simp [K.bind_run, K.queue, hfirst, hrun, K.pure_run, Kernel.relink]

/-! ## The tables -/

theorem Sim.queueEmpty (h : Sim k a) (q : KQueue) :
    queueEmpty q k = .ok ((a.queue q).isEmpty, k) := queueEmpty_run h.rep q

theorem setSem.sim (h : Sim k a) (s : SemId) (f : Sem → Sem) :
    ∃ k', setSem s f k = .ok ((), k') ∧ Sim k' (a.setSem s (f (a.sems s))) ∧ Quiet k k' := by
  refine ⟨_, rfl, ⟨h.rep, ?_, h.locks, h.conds, h.status, h.lines, ?_⟩, ?_⟩
  · simp [h.sems]
  · exact ⟨h.pages.bits, h.pages.shared, h.pages.npages, h.pages.ptes, h.pages.stack⟩
  · exact ⟨⟨rfl, rfl, fun _ => ⟨rfl, rfl, rfl⟩⟩, rfl, rfl, fun hm => by simp [hm]⟩

theorem setLock.sim (h : Sim k a) (l : LockId) (f : Lock → Lock) :
    ∃ k', setLock l f k = .ok ((), k') ∧ Sim k' (a.setLock l (f (a.locks l))) ∧ Quiet k k' := by
  refine ⟨_, rfl, ⟨h.rep, h.sems, ?_, h.conds, h.status, h.lines, ?_⟩, ?_⟩
  · simp [h.locks]
  · exact ⟨h.pages.bits, h.pages.shared, h.pages.npages, h.pages.ptes, h.pages.stack⟩
  · exact ⟨⟨rfl, rfl, fun _ => ⟨rfl, rfl, rfl⟩⟩, rfl, rfl, fun hm => by simp [hm]⟩

theorem setCond.sim (h : Sim k a) (c : CondId) (f : Cond → Cond) :
    ∃ k', setCond c f k = .ok ((), k') ∧ Sim k' (a.setCond c (f (a.conds c))) ∧ Quiet k k' := by
  refine ⟨_, rfl, ⟨h.rep, h.sems, h.locks, ?_, h.status, h.lines, ?_⟩, ?_⟩
  · simp [h.conds]
  · exact ⟨h.pages.bits, h.pages.shared, h.pages.npages, h.pages.ptes, h.pages.stack⟩
  · exact ⟨⟨rfl, rfl, fun _ => ⟨rfl, rfl, rfl⟩⟩, rfl, rfl, fun hm => by simp [hm]⟩

/-- A queue that is empty stays so when it is initialized. -/
theorem AQueueInit.sim (h : Sim k a) (hq : a.queue q = []) :
    ∃ k', K.queue (AQueueInit (.client q)) k = .ok (QUEUE_SUCCESS, k') ∧ Sim k' a ∧
      Quiet k k' := by
  refine ⟨k.relink k.qs, ?_, ?_, .relink _ _⟩
  · simp [K.queue, h.rep.init hq, Kernel.relink]
  · exact ⟨h.rep, h.sems, h.locks, h.conds, h.status, h.lines,
      ⟨h.pages.bits, h.pages.shared, h.pages.npages, h.pages.ptes, h.pages.stack⟩⟩

end dlxos
