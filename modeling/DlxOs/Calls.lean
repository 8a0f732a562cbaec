-- Each routine of `synch.c` does in the kernel what it does in the system.
-- It ends, or it ends the simulation where the system has no next step.
import DlxOs.Simulation

namespace dlxos

open Function

/-- A routine that starts in `k` ends as the system does. One that puts its
caller to sleep has written nothing without protection. -/
def Meets (k : Kernel) (r : Except Halt (Outcome × Kernel)) : Option (System × Result) → Prop
  | none => ∃ line, r = .error (.exitsim line)
  | some (b, res) => ∃ out k', r = .ok (out, k') ∧ out.result = res ∧ Sim k' b ∧
      k'.currentPCB = b.current ∧ Frozen k k' ∧
      ∀ stop, res = .sleeps stop → k'.intrs = 15 ∧ k'.exposed = k.exposed

/-- The running process, in the kernel and in the system. -/
structure Runs (k : Kernel) (a : System) (p : Pid) : Prop where
  sim : Sim k a
  sleepers : ∃ home waits, Sleepers a home waits
  current : a.current = some p
  pcb : k.currentPCB = some p

variable {k k' : Kernel} {a b : System} {p : Pid} {ps : List Pid} {q : KQueue}
  {home : Pid → KQueue} {waits : Pid → Option KQueue} {s : SemId} {l : LockId} {c : CondId}

theorem Meets.returns {i j : Level} {n : Int} (h : Sim k' b) (hq : Quiet (k.withIntrs j) k')
    (hc : k.currentPCB = b.current) :
    Meets k (.ok (.returns n, k'.withIntrs i)) (some (b, .returns n)) := by
  refine ⟨_, _, rfl, rfl, h.withIntrs i, hq.current.trans hc, ?_, by simp⟩
  exact ((Frozen.withIntrs k j).trans hq.frozen).trans (.withIntrs k' i)

/-- A routine that gets no object returns at once. -/
theorem Meets.fails {n : Int} (h : Sim k a) (hc : k.currentPCB = a.current) :
    Meets k (.ok (.returns n, k)) (some (a, .returns n)) :=
  ⟨_, _, rfl, rfl, h, hc, .refl k, by simp⟩

/-- A routine may start after a part that left the memory alone. -/
theorem Meets.after {r : Except Halt (Outcome × Kernel)} {x : Option (System × Result)}
    (hf : Frozen k k') (he : k'.exposed = k.exposed) (h : Meets k' r x) : Meets k r x := by
  rcases x with _ | ⟨b, res⟩
  · exact h
  · obtain ⟨out, k2, hr, ho, hsim, hc, hf2, hs⟩ := h
    refine ⟨out, k2, hr, ho, hsim, hc, hf.trans hf2, fun stop h => ?_⟩
    exact ⟨(hs stop h).1, (hs stop h).2.trans he⟩

/-- A routine disables interrupts first. -/
theorem Meets.disable {level : Level} {f : Level → K Outcome} {x : Option (System × Result)}
    (h : Meets (k.withIntrs level) (f k.intrs (k.withIntrs level)) x) :
    Meets k ((SetIntrs level >>= f) k) x := by
  rw [K.bind_ok (SetIntrs_run level k)]
  exact h.after (.withIntrs k level) rfl

theorem Runs.pcb_eq (h : Runs k a p) : k.currentPCB = a.current := h.pcb.trans h.current.symm

theorem Runs.withIntrs (h : Runs k a p) (level : Level) : Runs (k.withIntrs level) a p :=
  ⟨h.sim.withIntrs level, h.sleepers, h.current, h.pcb⟩

theorem Sleepers.zombies (h : Sleepers a home waits) : a.queue .zombieQueue = [] := by
  rw [List.eq_nil_iff_forall_not_mem]
  intro p hp
  exact h.zombie p ((h.placed.mem_proc rfl p).mp hp)

/-- A process that is on a waiting queue already goes to sleep. -/
theorem ProcessSleep.meets {stop : Stop} (place : Sleep) {d : System} (h : Sim k d)
    (hpl : Placed d.queue home waits) (hcur : d.current = some p)
    (hpcb : k.currentPCB = some p) (hz : d.queue .zombieQueue = []) (hm : k.intrs = 15)
    (hp : place.stop = stop) :
    Meets k ((do ProcessSleep; return .sleeps place : K Outcome) k)
      (if (d.move p .runQueue .waitQueue).queue .runQueue = [] then none
        else some (d.move p .runQueue .waitQueue, .sleeps stop)) := by
  obtain ⟨ps, hq⟩ := current_cons hcur
  obtain ⟨hlast, hnext⟩ := ProcessSleep.sim h hpl hq hpcb hz
  have hrest : (d.move p .runQueue .waitQueue).queue .runQueue = ps := by
    simp [moveLast, hq]
  rw [hrest]
  by_cases hps : ps = []
  · obtain ⟨line, hrun⟩ := hlast hps
    rw [if_pos hps]
    exact ⟨line, K.bind_error hrun⟩
  · obtain ⟨k', hrun, hsim, hc, hf, hi, he⟩ := hnext hps
    rw [if_neg hps]
    refine ⟨.sleeps place, k', by rw [K.bind_ok hrun]; rfl, by rw [Outcome.result, hp], hsim, ?_,
      hf, fun _ _ => ⟨hi.trans hm, he hm⟩⟩
    rw [hc, System.current, hrest]

/-- The running process is on a waiting queue, and has only to go to sleep. -/
structure BeforeSleep (k : Kernel) (d : System) (p : Pid) : Prop where
  sim : Sim k d
  placed : ∃ home waits, Placed d.queue home waits
  current : d.current = some p
  pcb : k.currentPCB = some p
  zombies : d.queue .zombieQueue = []
  masked : k.intrs = 15

theorem BeforeSleep.meets {stop : Stop} {d : System} (h : BeforeSleep k d p) (place : Sleep)
    (hp : place.stop = stop) :
    Meets k ((do ProcessSleep; return .sleeps place : K Outcome) k)
      (if (d.move p .runQueue .waitQueue).queue .runQueue = [] then none
        else some (d.move p .runQueue .waitQueue, .sleeps stop)) := by
  obtain ⟨home, waits, hpl⟩ := h.placed
  exact ProcessSleep.meets place h.sim hpl h.current h.pcb h.zombies h.masked hp

/-- The running process joins a waiting queue. -/
theorem waitOn.before (h : Runs k a p) (hw : q.isProc = false) (hm : k.intrs = 15)
    (noLink noInsert : String) :
    ∃ k1, waitOn q noLink noInsert k = .ok ((), k1) ∧
      BeforeSleep k1 (a.setQueue q (a.queue q ++ [p])) p ∧ Quiet k k1 := by
  obtain ⟨home, waits, hsl⟩ := h.sleepers
  obtain ⟨ps, hq⟩ := current_cons h.current
  obtain ⟨k1, hrun, hsim, hquiet⟩ := waitOn.sim h.sim hsl.placed.waitsOnce h.pcb hw noLink noInsert
  have hpl := hsl.placed.join (hsl.running (p := p) (by simp [hq])).2 hw
  refine ⟨k1, hrun, ⟨hsim, ⟨_, _, hpl⟩, ?_, hquiet.current.trans h.pcb, ?_,
    hquiet.intrs.trans hm⟩, hquiet⟩
  · rw [System.current, System.setQueue_run hw]
    exact h.current
  · have : KQueue.zombieQueue ≠ q := by rintro rfl; cases hw
    simpa [this] using hsl.zombies

/-- The end of a routine that puts its caller to sleep. -/
theorem sleepOn.meets {stop : Stop} {place : Sleep} (h : Runs k a p) (hw : q.isProc = false)
    (hm : k.intrs = 15) (hp : place.stop = stop) (noLink noInsert : String) :
    Meets k ((do
      waitOn q noLink noInsert
      ProcessSleep
      return .sleeps place : K Outcome) k) (a.sleep p q stop) := by
  obtain ⟨k1, hrun, hbefore, hquiet⟩ := waitOn.before h hw hm noLink noInsert
  rw [K.bind_ok hrun]
  exact (hbefore.meets place hp).after hquiet.frozen (hquiet.masked hm)

/-- The check of a handle, which is the same for every kind of object. -/
theorem Meets.handle {max : Nat} {handle n : Int} (i : Fin max → Bool) {f : Fin max → K Outcome}
    {g : Fin max → Option (System × Result)} (h : Runs k a p)
    (hf : ∀ x, Meets k (f x k) (g x)) {r : K Outcome}
    (hr : r = match slot? max handle with
      | none => return .returns n
      | some x => if i x then f x else return .returns n) :
    Meets k (r k) (((slot? max handle).filter i).elim (some (a, .returns n)) g) := by
  subst hr
  rcases slot? max handle with _ | x
  · exact Meets.fails h.sim h.pcb_eq
  · by_cases hi : i x = true
    · rw [Option.filter_some, if_pos hi]
      simp only [if_pos hi]
      exact hf x
    · rw [Option.filter_some, if_neg hi]
      simp only [if_neg hi]
      exact Meets.fails h.sim h.pcb_eq

/-! ## Semaphores -/

theorem SemWait.meets (h : Runs k a p) (s : SemId) : Meets k (SemWait s k) (a.semWait p s) := by
  have h' := h.withIntrs 15
  refine Meets.disable ?_
  rw [K.bind_ok (K.read_run _), h'.sim.sems]
  unfold System.semWait
  by_cases hn : (a.sems s).count ≤ 0
  · simp only [if_pos hn]
    exact sleepOn.meets h' rfl rfl rfl _ _
  · simp only [if_neg hn]
    obtain ⟨k1, hrun, hsim, hquiet⟩ := setSem.sim h'.sim s
      fun m => { m with count := toInt32 (m.count - 1) }
    rw [K.bind_ok hrun, RestoreIntrs, K.bind_ok (SetIntrs_run _ k1)]
    exact Meets.returns hsim hquiet h.pcb_eq

/-- The first process of a waiting queue wakes up, with a write of a table on
the way. -/
theorem wakeFirst.sim (h : Sim k a) (hpl : Placed a.queue home waits) (hq : q.isProc = false)
    (hp : a.queue q = p :: ps) (hhome : home p = .waitQueue) (noRemove : String) :
    ∃ k1, takeFirst q noRemove k = .ok (p, k1) ∧ Sim k1 (a.setQueue q ps) ∧ Quiet k k1 ∧
      ∀ k2 d, Sim k2 d → d.queue = (a.setQueue q ps).queue →
        ∃ k3, ProcessWakeup p k2 = .ok ((), k3) ∧ Sim k3 (d.move p .waitQueue .runQueue) ∧
          Quiet k2 k3 := by
  obtain ⟨k1, hrun, hsim, hquiet⟩ := takeFirst.sim h hq hp noRemove
  refine ⟨k1, hrun, hsim, hquiet, fun k2 d hsim2 hd => ?_⟩
  have hpl' : Placed d.queue home (update waits p none) := by
    rw [hd]
    exact hpl.leave hp hq
  exact ProcessWakeup.sim hsim2 hpl' hhome

/-- A process on a waiting queue is asleep. -/
theorem Sleepers.asleep (h : Sleepers a home waits) (hq : q.isProc = false) (hp : p ∈ a.queue q) :
    home p = .waitQueue := by
  have hwait : waits p = some q := (h.placed.mem_wait hq p).mp hp
  exact (h.waiting p).mpr (by simp [hwait])

theorem wake_eq (hp : a.queue q = p :: ps) :
    a.wake q = (a.setQueue q ps).move p .waitQueue .runQueue := by
  simp only [System.wake, hp]

theorem current_wake (hq : q.isProc = false) (h : a.current = some p) :
    (a.wake q).current = some p := by
  rw [System.current, System.wake_run hq, List.head?_append]
  rw [System.current] at h
  simp [h]

theorem SemSignal.meets (h : Runs k a p) (s : SemId) :
    Meets k (SemSignal s k) (some (a.semSignal s, .returns SYNC_SUCCESS)) := by
  have h' := h.withIntrs 15
  obtain ⟨home, waits, hsl⟩ := h.sleepers
  refine Meets.disable ?_
  obtain ⟨k1, hrun1, hsim1, hquiet1⟩ := setSem.sim h'.sim s
    fun m => { m with count := toInt32 (m.count + 1) }
  rw [K.bind_ok hrun1, K.bind_ok (K.read_run k1), hsim1.sems]
  simp only [System.setSem_sems, update_self, System.semSignal]
  by_cases hn : 0 < toInt32 ((a.sems s).count + 1)
  · rw [if_pos hn, K.bind_ok (hsim1.queueEmpty (.sem s))]
    rcases hq : a.queue (.sem s) with _ | ⟨r, rs⟩
    · simp only [System.setSem_queue, hq, hn, List.isEmpty_nil, Bool.not_true, Bool.false_eq_true,
        if_false, ne_eq, not_true_eq_false, and_false, RestoreIntrs]
      rw [K.bind_ok (SetIntrs_run _ k1)]
      exact Meets.returns hsim1 hquiet1 h.pcb_eq
    · obtain ⟨k2, hrun2, hsim2, hquiet2, hwake⟩ := wakeFirst.sim hsim1 hsl.placed (q := .sem s) rfl
        hq (hsl.asleep (q := .sem s) rfl (by simp [hq]))
        "FATAL ERROR: could not remove link from semaphore queue in SemSignal!"
      obtain ⟨k3, hrun3, hsim3, hquiet3⟩ := hwake k2 _ hsim2 rfl
      obtain ⟨k4, hrun4, hsim4, hquiet4⟩ := setSem.sim hsim3 s
        fun m => { m with count := toInt32 (m.count - 1) }
      simp only [System.setSem_queue, hq, hn, List.isEmpty_cons, Bool.not_false, if_true, ne_eq,
        reduceCtorEq, not_false_eq_true, and_self]
      rw [K.bind_ok hrun2, K.bind_ok hrun3, K.bind_ok hrun4, RestoreIntrs,
        K.bind_ok (SetIntrs_run _ k4)]
      refine Meets.returns ?_ (hquiet1.trans (hquiet2.trans (hquiet3.trans hquiet4))) ?_
      · convert hsim4 using 1
        simp [wake_eq hq, System.setSem, System.setQueue, System.move]
      · exact h.pcb.trans (current_wake rfl h.current).symm
  · rw [if_neg hn, if_neg fun h => hn h.1, RestoreIntrs, K.bind_ok (SetIntrs_run _ k1)]
    exact Meets.returns hsim1 hquiet1 h.pcb_eq

theorem SemHandleWait.meets (h : Runs k a p) (sem : Int) :
    Meets k (SemHandleWait sem k)
      ((a.sem? sem).elim (some (a, .returns SYNC_FAIL)) (a.semWait p)) := by
  rw [SemHandleWait, K.bind_ok (K.read_run k), h.sim.sems]
  exact Meets.handle (fun s => (a.sems s).inuse) h (SemWait.meets h)
    (by cases slot? MAX_SEMS sem <;> rfl)

theorem SemHandleSignal.meets (h : Runs k a p) (sem : Int) :
    Meets k (SemHandleSignal sem k) ((a.sem? sem).elim (some (a, .returns SYNC_FAIL))
      fun s => some (a.semSignal s, .returns SYNC_SUCCESS)) := by
  rw [SemHandleSignal, K.bind_ok (K.read_run k), h.sim.sems]
  exact Meets.handle (fun s => (a.sems s).inuse) h (SemSignal.meets h)
    (by cases slot? MAX_SEMS sem <;> rfl)

/-! ## Locks -/

theorem LockAcquire.meets (h : Runs k a p) (l : LockId) {stop : Stop}
    (hstop : stop = .lockAcquire l) :
    Meets k (LockAcquire l k) (a.lockAcquire p l stop) := by
  subst hstop
  have h' := h.withIntrs 15
  refine Meets.disable ?_
  rw [K.bind_ok (GetCurrentPid_run h'.pcb), K.bind_ok (K.read_run _), h'.sim.locks]
  unfold System.lockAcquire
  by_cases hp : (a.locks l).pid = (p : Int)
  · simp only [if_pos hp, RestoreIntrs]
    rw [K.bind_ok (SetIntrs_run _ _)]
    exact Meets.returns h'.sim (.refl _) h.pcb_eq
  · by_cases hge : 0 ≤ (a.locks l).pid
    · simp only [if_neg hp, if_pos hge]
      exact sleepOn.meets h' rfl rfl rfl _ _
    · simp only [if_neg hp, if_neg hge]
      obtain ⟨k1, hrun, hsim, hquiet⟩ := setLock.sim h'.sim l fun x => { x with pid := (p : Int) }
      rw [K.bind_ok hrun, RestoreIntrs, K.bind_ok (SetIntrs_run _ k1)]
      exact Meets.returns hsim hquiet h.pcb_eq

theorem LockHandleAcquire.meets (h : Runs k a p) (lock : Int) :
    Meets k (LockHandleAcquire lock k) ((a.lock? lock).elim (some (a, .returns SYNC_FAIL))
      fun l => a.lockAcquire p l (.lockAcquire l)) := by
  rw [LockHandleAcquire, K.bind_ok (K.read_run k), h.sim.locks]
  exact Meets.handle (fun l => (a.locks l).inuse) h (fun l => LockAcquire.meets h l rfl)
    (by cases slot? MAX_LOCKS lock <;> rfl)

/-- The owner releases the lock, with interrupts disabled. -/
theorem LockRelease.owner (h : Sim k a) (hpl : Placed a.queue home waits)
    (hwait : ∀ r ∈ a.queue (.lock l), home r = .waitQueue) (hpcb : k.currentPCB = some p)
    (hp : (a.locks l).pid = (p : Int)) :
    ∃ k1, LockRelease l k = .ok (.returns SYNC_SUCCESS, k1.withIntrs k.intrs) ∧
      Sim k1 (a.lockGive l) ∧ Quiet (k.withIntrs 15) k1 := by
  have h' := h.withIntrs 15
  rw [LockRelease, DisableIntrs, K.bind_ok (SetIntrs_run 15 k),
    K.bind_ok (GetCurrentPid_run (k := k.withIntrs 15) hpcb), K.bind_ok (K.read_run _), h'.locks,
    if_neg (not_not_intro hp)]
  obtain ⟨k1, hrun1, hsim1, hquiet1⟩ := setLock.sim h' l fun x => { x with pid := -1 }
  rw [K.bind_ok hrun1, K.bind_ok (hsim1.queueEmpty (.lock l))]
  unfold System.lockGive
  rcases hq : a.queue (.lock l) with _ | ⟨r, rs⟩
  · simp only [System.setLock_queue, hq, List.isEmpty_nil, Bool.not_true, Bool.false_eq_true,
      if_false, RestoreIntrs]
    exact ⟨k1, K.bind_ok (SetIntrs_run _ k1), hsim1, hquiet1⟩
  · obtain ⟨k2, hrun2, hsim2, hquiet2, hwake⟩ := wakeFirst.sim hsim1 hpl (q := .lock l) rfl hq
      (hwait r (by simp [hq]))
      "FATAL ERROR: could not remove link from lock queue in LockRelease!"
    obtain ⟨k3, hrun3, hsim3, hquiet3⟩ := setLock.sim hsim2 l fun x => { x with pid := (r : Int) }
    obtain ⟨k4, hrun4, hsim4, hquiet4⟩ := hwake k3 _ hsim3 rfl
    simp only [System.setLock_queue, hq, List.isEmpty_cons, Bool.not_false, if_true, RestoreIntrs]
    refine ⟨k4, ?_, ?_, hquiet1.trans (hquiet2.trans (hquiet3.trans hquiet4))⟩
    · rw [K.bind_ok hrun2, K.bind_ok hrun3, K.bind_ok hrun4]
      exact K.bind_ok (SetIntrs_run _ k4)
    · convert hsim4 using 1
      simp [wake_eq hq, System.setLock, System.setQueue, System.move]

theorem current_lockGive (h : a.current = some p) : (a.lockGive l).current = some p := by
  unfold System.lockGive
  split
  · exact h
  · exact current_wake (q := .lock l) rfl h

theorem LockRelease.meets (h : Runs k a p) (l : LockId) :
    Meets k (LockRelease l k) (some (a.lockRelease p l)) := by
  obtain ⟨home, waits, hsl⟩ := h.sleepers
  unfold System.lockRelease
  by_cases hp : (a.locks l).pid = (p : Int)
  · obtain ⟨k1, hrun, hsim, hquiet⟩ := LockRelease.owner h.sim hsl.placed
      (fun r => hsl.asleep (q := .lock l) rfl) h.pcb hp
    rw [if_pos hp, hrun]
    exact Meets.returns hsim hquiet (h.pcb.trans (current_lockGive h.current).symm)
  · have h' := h.withIntrs 15
    rw [LockRelease, DisableIntrs, K.bind_ok (SetIntrs_run 15 k),
      K.bind_ok (GetCurrentPid_run h'.pcb), K.bind_ok (K.read_run _), h'.sim.locks, if_pos hp,
      if_neg hp]
    exact Meets.returns (i := 15) (j := k.intrs) h.sim (.refl k) h.pcb_eq

theorem LockHandleRelease.meets (h : Runs k a p) (lock : Int) :
    Meets k (LockHandleRelease lock k) ((a.lock? lock).elim (some (a, .returns SYNC_FAIL))
      fun l => some (a.lockRelease p l)) := by
  rw [LockHandleRelease, K.bind_ok (K.read_run k), h.sim.locks]
  exact Meets.handle (fun l => (a.locks l).inuse) h (LockRelease.meets h)
    (by cases slot? MAX_LOCKS lock <;> rfl)

/-! ## Condition variables -/

/-- The owner may join another queue before it gives the lock away. -/
theorem lockGive_setQueue (a : System) (l : LockId) (hq : q.isProc = false) (hne : q ≠ .lock l)
    (ps : List Pid) : (a.setQueue q ps).lockGive l = (a.lockGive l).setQueue q ps := by
  unfold System.lockGive
  rw [System.setQueue_queue, update_of_ne (Ne.symm hne)]
  rcases hl : a.queue (.lock l) with _ | ⟨r, rs⟩
  · rfl
  · have h1 : KQueue.waitQueue ≠ q := by rintro rfl; cases hq
    have h2 : KQueue.runQueue ≠ q := by rintro rfl; cases hq
    have hwake : (a.setQueue q ps).wake (.lock l) = (a.wake (.lock l)).setQueue q ps := by
      rw [wake_eq hl, wake_eq (show (a.setQueue q ps).queue (.lock l) = r :: rs by
        simp [Ne.symm hne, hl])]
      simp only [System.setQueue, System.move, moveLast, System.mk.injEq, and_true]
      rw [update_comm hne, update_of_ne h1, update_comm (Ne.symm h1), update_of_ne h2,
        update_comm (Ne.symm h2)]
    simp only [hwake]
    rfl

/-- The owner of the lock joins the queue and gives the lock away, unless the
lock was never created. Then it has only to go to sleep. -/
theorem CondWait.before (h : Runs k a p) {c : CondId} {l : LockId} (hl : (a.conds c).lock = l)
    (hp : (a.locks l).pid = (p : Int)) :
    ∃ d k2, d = (if (a.locks l).inuse then a.lockGive l else a) ∧
      CondWait c k = (do ProcessSleep; return .sleeps (.condWait c k.intrs) : K Outcome) k2 ∧
      BeforeSleep k2 (d.setQueue (.cond c) (d.queue (.cond c) ++ [p])) p ∧
      Quiet (k.withIntrs 15) k2 := by
  have h' := h.withIntrs 15
  obtain ⟨home, waits, hsl⟩ := h.sleepers
  obtain ⟨ps, hrunq⟩ := current_cons h.current
  obtain ⟨k1, hrun1, hbefore, hquiet1⟩ := waitOn.before h' (q := .cond c) rfl rfl
    "FATAL ERROR: could not allocate link for cond var queue in CondWait!"
    "FATAL ERROR: could not insert new link into cond waiting queue in CondWait!"
  have hplace := hsl.placed.join (q := .cond c) (hsl.running (p := p) (by simp [hrunq])).2 rfl
  have hsim1 := hbefore.sim
  have hlocks1 : k1.locks = a.locks := hsim1.locks
  have hstart : CondWait c k = (do
      let _ ← LockHandleRelease (l : Nat)
      ProcessSleep
      return .sleeps (.condWait c k.intrs) : K Outcome) k1 := by
    rw [CondWait, DisableIntrs, K.bind_ok (SetIntrs_run 15 k), K.bind_ok (GetCurrentPid_run h'.pcb),
      K.bind_ok (K.read_run _), h'.sim.conds, h'.sim.locks]
    simp only [hl, hp, ne_eq, not_true_eq_false, if_false]
    rw [K.bind_ok hrun1]
  rw [hstart, LockHandleRelease]
  rcases hi : (a.locks l).inuse with _ | _
  · refine ⟨a, k1, by simp, ?_, hbefore, hquiet1⟩
    rw [K.bind_ok (a := .returns SYNC_FAIL) (j := k1)]
    rw [K.bind_ok (K.read_run k1)]
    simp only [slot?_val, hlocks1, hi]
    rfl
  · obtain ⟨home', waits', hgive⟩ := hsl.lockGive l
    have hwait : ∀ r ∈ (a.setQueue (.cond c) (a.queue (.cond c) ++ [p])).queue (.lock l),
        home r = .waitQueue := by
      intro r hr
      exact hsl.asleep (q := .lock l) rfl (by simpa using hr)
    obtain ⟨k2, hrun2, hsim2, hquiet2⟩ := LockRelease.owner hsim1 hplace hwait hbefore.pcb hp
    have hquiet3 : Quiet k1 (k2.withIntrs k1.intrs) :=
      ⟨((Frozen.withIntrs k1 15).trans hquiet2.frozen).trans (.withIntrs k2 _),
        hquiet2.current, rfl, fun _ => hquiet2.masked rfl⟩
    have hcur2 : (a.lockGive l).current = some p := current_lockGive h.current
    obtain ⟨ps2, hrunq2⟩ := current_cons hcur2
    have hsame := System.Same.lockGive a l (q := .cond c) (by simp)
    refine ⟨a.lockGive l, k2.withIntrs k1.intrs, by simp, ?_,
      ⟨?_, ⟨_, _, hgive.placed.join (q := .cond c)
        (hgive.running (p := p) (by simp [hrunq2])).2 rfl⟩, ?_, ?_, ?_, ?_⟩,
      hquiet1.trans hquiet3⟩
    · rw [K.bind_ok (a := .returns SYNC_SUCCESS) (j := k2.withIntrs k1.intrs)]
      rw [K.bind_ok (K.read_run k1)]
      simp only [slot?_val, hlocks1, hi, if_true]
      exact hrun2
    · rw [lockGive_setQueue a l (q := .cond c) rfl (by simp)] at hsim2
      rw [hsame.2]
      exact hsim2.withIntrs _
    · simpa [System.current] using hcur2
    · exact hquiet3.current.trans hbefore.pcb
    · simpa using hgive.zombies
    · exact hquiet3.intrs.trans hbefore.masked

theorem CondWait.meets (h : Runs k a p) (c : CondId) : Meets k (CondWait c k) (a.condWait p c) := by
  have h' := h.withIntrs 15
  unfold System.condWait
  by_cases hp : (a.locks (a.conds c).lock).pid = (p : Int)
  · simp only [hp, if_true]
    obtain ⟨d, k2, hd, hrun, hbefore, hquiet⟩ := CondWait.before h rfl hp
    rw [hrun, ← hd]
    exact (hbefore.meets (.condWait c k.intrs) rfl).after
      ((Frozen.withIntrs k 15).trans hquiet.frozen) (hquiet.masked rfl)
  · refine Meets.disable ?_
    rw [K.bind_ok (GetCurrentPid_run h'.pcb), K.bind_ok (K.read_run _), h'.sim.conds, h'.sim.locks]
    simp only [ne_eq, hp, not_false_eq_true, if_true, if_false]
    exact ⟨_, rfl⟩

theorem CondHandleWait.meets (h : Runs k a p) (cond : Int) :
    Meets k (CondHandleWait cond k)
      ((a.cond? cond).elim (some (a, .returns SYNC_FAIL)) (a.condWait p)) := by
  rw [CondHandleWait, K.bind_ok (K.read_run k), h.sim.conds]
  exact Meets.handle (fun c => (a.conds c).inuse) h (CondWait.meets h)
    (by cases slot? MAX_CONDS cond <;> rfl)

/-- A signal or a broadcast by a process that does not own the lock. -/
theorem Sim.printf (h : Sim k a) {line : String} (h1 : line ≠ suspendAssertion)
    (h2 : line ≠ wakeupAssertion) : Sim { k with console := k.console ++ [line] } a := by
  refine ⟨h.rep, h.sems, h.locks, h.conds, h.status, ?_,
    ⟨h.pages.bits, h.pages.shared, h.pages.npages, h.pages.ptes, h.pages.stack⟩⟩
  simp [h.lines, Ne.symm h1, Ne.symm h2]

theorem CondSignal.meets (h : Runs k a p) (c : CondId) :
    Meets k (CondSignal c k) (some (a.condSignal p c)) := by
  have h' := h.withIntrs 15
  obtain ⟨home, waits, hsl⟩ := h.sleepers
  refine Meets.disable ?_
  rw [K.bind_ok (GetCurrentPid_run h'.pcb), K.bind_ok (K.read_run _), h'.sim.conds, h'.sim.locks]
  unfold System.condSignal
  by_cases hp : (a.locks (a.conds c).lock).pid = (p : Int)
  · simp only [hp, ne_eq, not_true_eq_false, if_false, if_true]
    rw [K.bind_ok (h'.sim.queueEmpty (.cond c))]
    rcases hq : a.queue (.cond c) with _ | ⟨r, rs⟩
    · have hw : a.wake (.cond c) = a := by simp only [System.wake, hq]
      simp only [List.isEmpty_nil, Bool.not_true, Bool.false_eq_true, if_false, RestoreIntrs, hw]
      rw [K.bind_ok (SetIntrs_run _ _)]
      exact Meets.returns h'.sim (.refl _) h.pcb_eq
    · obtain ⟨k2, hrun2, hsim2, hquiet2, hwake⟩ := wakeFirst.sim h'.sim hsl.placed (q := .cond c)
        rfl hq (hsl.asleep (q := .cond c) rfl (by simp [hq]))
        "FATAL ERROR: could not remove link from conditional variable queue in CondSignal!"
      obtain ⟨k3, hrun3, hsim3, hquiet3⟩ := hwake k2 _ hsim2 rfl
      simp only [List.isEmpty_cons, Bool.not_false, if_true]
      rw [K.bind_ok hrun2, K.bind_ok hrun3, RestoreIntrs, K.bind_ok (SetIntrs_run _ k3), wake_eq hq]
      refine Meets.returns hsim3 (hquiet2.trans hquiet3) (h.pcb.trans ?_)
      rw [← wake_eq hq, current_wake rfl h.current]
  · simp only [hp, ne_eq, not_false_eq_true, if_true, if_false]
    exact ⟨_, _, rfl, rfl, h'.sim.printf (by decide) (by decide), h.pcb_eq,
      ⟨rfl, rfl, fun _ => ⟨rfl, rfl, rfl⟩⟩, by simp⟩

theorem CondHandleSignal.meets (h : Runs k a p) (cond : Int) :
    Meets k (CondHandleSignal cond k) ((a.cond? cond).elim (some (a, .returns SYNC_FAIL))
      fun c => some (a.condSignal p c)) := by
  rw [CondHandleSignal, K.bind_ok (K.read_run k), h.sim.conds]
  exact Meets.handle (fun c => (a.conds c).inuse) h (CondSignal.meets h)
    (by cases slot? MAX_CONDS cond <;> rfl)

/-- The loop of `CondBroadcast` ends, and it wakes every process. -/
theorem wakeAll.sim (c : CondId) (ps : List Pid) :
    ∀ {k a home waits}, Sim k a → Sleepers a home waits → a.queue (.cond c) = ps →
      ∀ fuel, ps.length < fuel → ∃ k', wakeAll c fuel k = .ok ((), k') ∧
        Sim k' (System.wakeAll (.cond c) ps.length a) ∧ Quiet k k' := by
  induction ps with
  | nil =>
    intro k a home waits h _ hq fuel hf
    obtain ⟨n, rfl⟩ : ∃ n, fuel = n + 1 := ⟨fuel - 1, by simp at hf; omega⟩
    refine ⟨k, ?_, h, .refl k⟩
    rw [wakeAll, K.bind_ok (h.queueEmpty (.cond c)), hq]
    rfl
  | cons r rs ih =>
    intro k a home waits h hsl hq fuel hf
    obtain ⟨n, rfl⟩ : ∃ n, fuel = n + 1 := ⟨fuel - 1, by simp at hf; omega⟩
    obtain ⟨k1, hrun1, hsim1, hquiet1, hwake⟩ := wakeFirst.sim h hsl.placed (q := .cond c) rfl hq
      (hsl.asleep (q := .cond c) rfl (by simp [hq]))
      "FATAL ERROR: could not remove link from conditional variable queue in CondSignal!"
    obtain ⟨k2, hrun2, hsim2, hquiet2⟩ := hwake k1 _ hsim1 rfl
    rw [← wake_eq hq] at hsim2
    obtain ⟨home', waits', hsl'⟩ := hsl.wake (q := .cond c) rfl
    have hq' : (a.wake (.cond c)).queue (.cond c) = rs := by
      simp [System.wake_waiting, hq]
    obtain ⟨k3, hrun3, hsim3, hquiet3⟩ := ih hsim2 hsl' hq' n (by simp at hf; omega)
    refine ⟨k3, ?_, hsim3, hquiet1.trans (hquiet2.trans hquiet3)⟩
    rw [wakeAll, K.bind_ok (h.queueEmpty (.cond c)), hq]
    simp only [List.isEmpty_cons, Bool.false_eq_true, if_false]
    rw [K.bind_ok hrun1, K.bind_ok hrun2, hrun3]

theorem current_wakeAll (h : a.current = some p) (n : Nat) (hq : q.isProc = false) :
    (System.wakeAll q n a).current = some p := by
  rw [System.current] at h
  rw [System.current, System.wakeAll_run n hq, List.head?_append, h]
  rfl

theorem CondBroadcast.meets (h : Runs k a p) (c : CondId) :
    Meets k (CondBroadcast c k) (some (a.condBroadcast p c)) := by
  have h' := h.withIntrs 15
  obtain ⟨home, waits, hsl⟩ := h.sleepers
  refine Meets.disable ?_
  rw [K.bind_ok (GetCurrentPid_run h'.pcb), K.bind_ok (K.read_run _), h'.sim.conds, h'.sim.locks]
  unfold System.condBroadcast
  by_cases hp : (a.locks (a.conds c).lock).pid = (p : Int)
  · simp only [hp, ne_eq, not_true_eq_false, if_false, if_true]
    have hlen : (a.queue (.cond c)).length < QUEUE_MAX_LINKS + 1 := by
      have := (hsl.placed.nodup (.cond c)).length_le_card
      simp only [Fintype.card_fin, PROCESS_MAX_PROCS] at this
      simp only [QUEUE_MAX_LINKS]
      omega
    obtain ⟨k1, hrun1, hsim1, hquiet1⟩ := wakeAll.sim c _ h'.sim hsl rfl _ hlen
    rw [K.bind_ok hrun1, RestoreIntrs, K.bind_ok (SetIntrs_run _ k1)]
    refine Meets.returns hsim1 hquiet1 (h.pcb.trans ?_)
    rw [current_wakeAll h.current _ rfl]
  · simp only [hp, ne_eq, not_false_eq_true, if_true, if_false]
    exact ⟨_, _, rfl, rfl, h'.sim.printf (by decide) (by decide), h.pcb_eq,
      ⟨rfl, rfl, fun _ => ⟨rfl, rfl, rfl⟩⟩, by simp⟩

theorem CondHandleBroadcast.meets (h : Runs k a p) (cond : Int) :
    Meets k (CondHandleBroadcast cond k) ((a.cond? cond).elim (some (a, .returns SYNC_FAIL))
      fun c => some (a.condBroadcast p c)) := by
  rw [CondHandleBroadcast, K.bind_ok (K.read_run k), h.sim.conds]
  exact Meets.handle (fun c => (a.conds c).inuse) h (CondBroadcast.meets h)
    (by cases slot? MAX_CONDS cond <;> rfl)

/-! ## Creation -/

/-- The waiting queue of an object that is not in use is empty. -/
theorem Sleepers.unused (h : Sleepers a home waits) (hq : q.isProc = false)
    (hc : a.created q = false) : a.queue q = [] := by
  rw [List.eq_nil_iff_forall_not_mem]
  intro p hp
  rw [h.created p q ((h.placed.mem_wait hq p).mp hp)] at hc
  cases hc

theorem returning_run {x : K Int} {n : Int} (h : x k = .ok (n, k')) :
    returning x k = .ok (.returns n, k') := by
  rw [returning, K.bind_ok h]
  rfl

/-- A routine that sets up an object ends outside the protected part. -/
theorem Meets.creates {x : K Int} {n : Int} (k' : Kernel) (hrun : x k = .ok (n, k')) (h : Sim k' b)
    (hf : Frozen k k') (hc : k'.currentPCB = b.current) :
    Meets k (returning x k) (some (b, .returns n)) :=
  ⟨_, k', returning_run hrun, rfl, h, hc, hf, by simp⟩

theorem SemCreate.meets (h : Runs k a p) (count : Int) :
    Meets k (returning (SemCreate (toInt32 count)) k) (some (a.semCreate count)) := by
  obtain ⟨home, waits, hsl⟩ := h.sleepers
  have h' := h.sim.withIntrs 15
  unfold System.semCreate
  rcases hu : firstUnused fun s => (a.sems s).inuse with _ | s
  · refine Meets.creates k ?_ h.sim (.refl k) h.pcb_eq
    rw [SemCreate, DisableIntrs, K.bind_ok (SetIntrs_run 15 k), K.bind_ok (K.read_run _), h'.sems,
      hu]
    rfl
  · have hq : a.queue (.sem s) = [] := hsl.unused rfl (firstUnused_some hu)
    obtain ⟨k1, hrun1, hsim1, hquiet1⟩ := setSem.sim h' s fun m => { m with inuse := true }
    obtain ⟨k2, hrun2, hsim2, hquiet2⟩ := AQueueInit.sim (q := .sem s)
      (hsim1.withIntrs k.intrs) (by simpa using hq)
    obtain ⟨k3, hrun3, hsim3, hquiet3⟩ :=
      setSem.sim hsim2 s fun m => { m with count := toInt32 count }
    refine Meets.creates k3 ?_ (by simpa [System.setSem] using hsim3) ?_ ?_
    · rw [SemCreate, DisableIntrs, K.bind_ok (SetIntrs_run 15 k), K.bind_ok (K.read_run _),
        h'.sems, hu]
      simp only
      rw [K.bind_ok hrun1, RestoreIntrs, K.bind_ok (SetIntrs_run _ k1), SemInit,
        K.bind_ok (a := SYNC_SUCCESS) (j := k3)]
      · rfl
      · rw [K.bind_ok hrun2, K.bind_ok hrun3]
        rfl
    · exact (((Frozen.withIntrs k 15).trans hquiet1.frozen).trans (.withIntrs k1 _)).trans
        (hquiet2.frozen.trans hquiet3.frozen)
    · exact (hquiet3.current.trans (hquiet2.current.trans hquiet1.current)).trans h.pcb_eq

theorem LockCreate.meets (h : Runs k a p) :
    Meets k (returning LockCreate k) (some a.lockCreate) := by
  obtain ⟨home, waits, hsl⟩ := h.sleepers
  have h' := h.sim.withIntrs 15
  unfold System.lockCreate
  rcases hu : firstUnused fun l => (a.locks l).inuse with _ | l
  · refine Meets.creates k ?_ h.sim (.refl k) h.pcb_eq
    rw [LockCreate, DisableIntrs, K.bind_ok (SetIntrs_run 15 k), K.bind_ok (K.read_run _),
      h'.locks, hu]
    rfl
  · have hq : a.queue (.lock l) = [] := hsl.unused rfl (firstUnused_some hu)
    obtain ⟨k1, hrun1, hsim1, hquiet1⟩ := setLock.sim h' l fun x => { x with inuse := true }
    obtain ⟨k2, hrun2, hsim2, hquiet2⟩ := AQueueInit.sim (q := .lock l)
      (hsim1.withIntrs k.intrs) (by simpa using hq)
    obtain ⟨k3, hrun3, hsim3, hquiet3⟩ := setLock.sim hsim2 l fun x => { x with pid := -1 }
    refine Meets.creates k3 ?_ (by simpa [System.setLock] using hsim3) ?_ ?_
    · rw [LockCreate, DisableIntrs, K.bind_ok (SetIntrs_run 15 k), K.bind_ok (K.read_run _),
        h'.locks, hu]
      simp only
      rw [K.bind_ok hrun1, RestoreIntrs, K.bind_ok (SetIntrs_run _ k1), LockInit,
        K.bind_ok (a := SYNC_SUCCESS) (j := k3)]
      · rfl
      · rw [K.bind_ok hrun2, K.bind_ok hrun3]
        rfl
    · exact (((Frozen.withIntrs k 15).trans hquiet1.frozen).trans (.withIntrs k1 _)).trans
        (hquiet2.frozen.trans hquiet3.frozen)
    · exact (hquiet3.current.trans (hquiet2.current.trans hquiet1.current)).trans h.pcb_eq

theorem CondCreate.meets (h : Runs k a p) (lock : Int) :
    Meets k (returning (CondCreate lock) k) ((slot? MAX_LOCKS lock).elim
      (some (a, .returns INVALID_COND)) fun l => some (a.condCreate l)) := by
  obtain ⟨home, waits, hsl⟩ := h.sleepers
  have h' := h.sim.withIntrs 15
  rcases hl : slot? MAX_LOCKS lock with _ | l
  · refine Meets.creates k ?_ h.sim (.refl k) h.pcb_eq
    simp only [CondCreate, hl]
    rfl
  simp only [Option.elim, System.condCreate]
  rcases hu : firstUnused fun c => (a.conds c).inuse with _ | c
  · refine Meets.creates k ?_ h.sim (.refl k) h.pcb_eq
    simp only [CondCreate, hl]
    rw [DisableIntrs, K.bind_ok (SetIntrs_run 15 k), K.bind_ok (K.read_run _), h'.conds, hu]
    rfl
  · have hq : a.queue (.cond c) = [] := hsl.unused rfl (firstUnused_some hu)
    obtain ⟨k1, hrun1, hsim1, hquiet1⟩ := setCond.sim h' c fun _ => ⟨l, true⟩
    obtain ⟨k2, hrun2, hsim2, hquiet2⟩ := AQueueInit.sim (q := .cond c)
      (hsim1.withIntrs k.intrs) (by simpa using hq)
    refine Meets.creates k2 ?_ hsim2 ?_ ?_
    · simp only [CondCreate, hl]
      rw [DisableIntrs, K.bind_ok (SetIntrs_run 15 k), K.bind_ok (K.read_run _), h'.conds, hu]
      simp only
      rw [K.bind_ok hrun1, RestoreIntrs, K.bind_ok (SetIntrs_run _ k1), CondInit,
        K.bind_ok (a := SYNC_SUCCESS) (j := k2)]
      · rfl
      · rw [K.bind_ok hrun2]
        rfl
    · exact (((Frozen.withIntrs k 15).trans hquiet1.frozen).trans (.withIntrs k1 _)).trans
        hquiet2.frozen
    · exact (hquiet2.current.trans hquiet1.current).trans h.pcb_eq

/-! ## After a sleep -/

/-- An acquire that ends a wait on a condition variable notes another stop. -/
theorem lockAcquire_none (stop stop' : Stop) (h : a.lockAcquire p l stop = none) :
    a.lockAcquire p l stop' = none := by
  unfold System.lockAcquire System.sleep at h ⊢
  by_cases h1 : (a.locks l).pid = (p : Int)
  · simp [h1] at h
  · by_cases h2 : 0 ≤ (a.locks l).pid
    · by_cases h3 : (a.slept p (.lock l)).queue .runQueue = []
      · simp only [if_neg h1, if_pos h2, if_pos h3]
      · simp only [if_neg h1, if_pos h2, if_neg h3, reduceCtorEq] at h
    · simp only [if_neg h1, if_neg h2, reduceCtorEq] at h

theorem lockAcquire_stop {stop : Stop} {res : Result} (stop' : Stop)
    (h : a.lockAcquire p l stop = some (b, res)) :
    res = .returns SYNC_SUCCESS ∧ a.lockAcquire p l stop' = some (b, .returns SYNC_SUCCESS) ∨
      res = .sleeps stop ∧ a.lockAcquire p l stop' = some (b, .sleeps stop') := by
  unfold System.lockAcquire System.sleep at h ⊢
  by_cases h1 : (a.locks l).pid = (p : Int)
  · simp only [if_pos h1, Option.some.injEq, Prod.mk.injEq] at h ⊢
    exact .inl ⟨h.2.symm, h.1, trivial⟩
  · by_cases h2 : 0 ≤ (a.locks l).pid
    · by_cases h3 : (a.slept p (.lock l)).queue .runQueue = []
      · simp only [if_neg h1, if_pos h2, if_pos h3, reduceCtorEq] at h
      · simp only [if_neg h1, if_pos h2, if_neg h3, Option.some.injEq, Prod.mk.injEq] at h ⊢
        exact .inr ⟨h.2.symm, h.1, trivial⟩
    · simp only [if_neg h1, if_neg h2, Option.some.injEq, Prod.mk.injEq] at h ⊢
      exact .inl ⟨h.2.symm, h.1, trivial⟩

theorem afterSleep.meets (h : Runs k a p) (place : Sleep) :
    Meets k (afterSleep place k) (a.afterSleep p place.stop) := by
  have hback : ∀ intrval : Level, Meets k ((do
      let _ ← RestoreIntrs intrval
      return .returns SYNC_SUCCESS : K Outcome) k) (some (a, .returns SYNC_SUCCESS)) := by
    intro intrval
    refine ⟨.returns SYNC_SUCCESS, k.withIntrs intrval, rfl, rfl, h.sim.withIntrs _, h.pcb_eq,
      .withIntrs k _, by simp⟩
  cases place with
  | semWait s intrval => exact hback intrval
  | lockAcquire l intrval => exact hback intrval
  | condAcquire c intrval => exact hback intrval
  | condWait c intrval =>
    have h1 := h.withIntrs intrval
    have hacq := LockHandleAcquire.meets h1 ((a.conds c).lock : Nat)
    simp only [System.lock?, slot?_val] at hacq
    simp only [afterSleep, System.afterSleep, Sleep.stop]
    rw [RestoreIntrs, K.bind_ok (SetIntrs_run intrval k), K.bind_ok (K.read_run _), h1.sim.conds]
    refine Meets.after (.withIntrs k intrval) rfl ?_
    generalize (a.conds c).lock = l at hacq ⊢
    rcases hi : (a.locks l).inuse with _ | _
    · -- the lock was never created, and nobody looks at the failure
      simp only [Option.filter_some, hi, Bool.false_eq_true, if_false, Option.elim] at hacq ⊢
      obtain ⟨out, k2, hrun, ho, hsim, hc, hf, _⟩ := hacq
      rw [K.bind_ok hrun]
      rcases out with v | place
      · exact ⟨_, k2, rfl, rfl, hsim, hc, hf, by simp⟩
      · cases ho
    · simp only [Option.filter_some, hi, if_true, Option.elim] at hacq ⊢
      rcases hx : a.lockAcquire p l (.lockAcquire l) with _ | ⟨b, res⟩
      · rw [hx] at hacq
        obtain ⟨line, hrun⟩ := hacq
        rw [lockAcquire_none _ _ hx]
        exact ⟨line, K.bind_error hrun⟩
      · rw [hx] at hacq
        obtain ⟨out, k2, hrun, ho, hsim, hc, hf, hs⟩ := hacq
        rw [K.bind_ok hrun]
        rcases lockAcquire_stop (.condAcquire c) hx with ⟨rfl, hx'⟩ | ⟨rfl, hx'⟩
        · rw [hx']
          rcases out with v | place
          · exact ⟨_, k2, rfl, rfl, hsim, hc, hf, by simp⟩
          · cases ho
        · rw [hx']
          rcases out with v | place
          · cases ho
          · rcases place with _ | ⟨l', i⟩ | _ | _
            · cases ho
            · exact ⟨_, k2, rfl, rfl, hsim, hc, hf, fun _ _ => hs _ rfl⟩
            · cases ho
            · cases ho

/-! ## A trap -/

/-- The calls that leave the memory alone. -/
def Call.isSync : Call → Bool
  | .shareCreatePage | .shareMapPage _ => false
  | _ => true

theorem trap.meets (h : Runs k a p) {call : Call} (hc : call.isSync = true) (v : Int) :
    Meets k (trap call k) (a.call p v call) := by
  cases call with
  | semCreate count => exact SemCreate.meets h count
  | semWait sem => exact SemHandleWait.meets h sem
  | semSignal sem => exact SemHandleSignal.meets h sem
  | lockCreate => exact LockCreate.meets h
  | lockAcquire lock => exact LockHandleAcquire.meets h lock
  | lockRelease lock => exact LockHandleRelease.meets h lock
  | condCreate lock => exact CondCreate.meets h lock
  | condWait cond => exact CondHandleWait.meets h cond
  | condSignal cond => exact CondHandleSignal.meets h cond
  | condBroadcast cond => exact CondHandleBroadcast.meets h cond
  | shareCreatePage | shareMapPage handle => cases hc

end dlxos
