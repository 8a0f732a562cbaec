-- The pool of links. At each boundary of the kernel a process holds one link
-- for its process queue, and a second one while it waits, so most of the pool
-- stays free, and no routine ever fails to get, to insert or to remove a link.
import DlxOs.Exec

namespace dlxos

open Function runs

variable {k k' : Kernel} {m m' : Machine} {a d : System} {p : Pid} {q : KQueue}
  {Q : KQueue → List Pid} {e : Entry} {r : Return} {x : Halt} {c : Call}
  {home : Pid → KQueue} {waits : Pid → Option KQueue}

/-! ## Counting links -/

/-- The queues of `process.c`. -/
def processQueues : List KQueue := [.freepcbs, .runQueue, .waitQueue, .zombieQueue]

/-- The waiting queues of the objects of `synch.c`. -/
def objectQueues : List KQueue :=
  (List.finRange MAX_SEMS).map .sem ++ (List.finRange MAX_LOCKS).map .lock ++
    (List.finRange MAX_CONDS).map .cond

theorem mem_processQueues : q ∈ processQueues ↔ q.isProc = true := by
  cases q <;> simp [processQueues, KQueue.isProc]

theorem mem_objectQueues : q ∈ objectQueues ↔ q.isProc = false := by
  cases q <;> simp [objectQueues, KQueue.isProc]

theorem processQueues_nodup : processQueues.Nodup := by decide

theorem objectQueues_nodup : objectQueues.Nodup := by
  unfold objectQueues
  refine List.nodup_append.mpr ⟨List.nodup_append.mpr ⟨?_, ?_, by simp⟩, ?_, ?_⟩
  rotate_left 3
  · simp only [List.mem_append, List.mem_map]
    rintro q (⟨i, _, rfl⟩ | ⟨i, _, rfl⟩) r ⟨j, _, rfl⟩ <;> simp
  all_goals
    refine (List.nodup_finRange _).map fun i j h => ?_
    cases h
    rfl

/-- How many entries the queues hold together. -/
def entries (qs : List KQueue) (Q : KQueue → List Pid) : Nat := (qs.map fun q => (Q q).length).sum

/-- The entries of the queues, one after another, where no process is there
twice. -/
theorem entries_nodup {α : Type} {qs : List KQueue} (hqs : qs.Nodup) {f : KQueue → List α}
    (hf : ∀ q ∈ qs, (f q).Nodup)
    (hone : ∀ q ∈ qs, ∀ r ∈ qs, ∀ x, x ∈ f q → x ∈ f r → q = r) :
    (qs.flatMap f).Nodup := by
  refine List.nodup_flatMap.mpr ⟨hf, hqs.imp_of_mem fun hq hr hne x hx hx' => ?_⟩
  exact hne (hone _ hq _ hr x hx hx')

/-- A list that holds each number once is as long as there are numbers. -/
theorem length_of_all {n : Nat} {xs : List (Fin n)} (hd : xs.Nodup) (hall : ∀ i, i ∈ xs) :
    xs.length = n := by
  have hperm : xs.Perm (List.finRange n) :=
    (List.perm_ext_iff_of_nodup hd (List.nodup_finRange n)).mpr (by simp [hall])
  rw [hperm.length_eq, List.length_finRange]

/-- Every link is free, or on one of the queues. -/
theorem Rep.count (h : Rep k.qs Q) :
    (k.qs.store.links .freeLinks).length + entries processQueues Q + entries objectQueues Q =
      QUEUE_MAX_LINKS := by
  obtain ⟨xs, h⟩ := h
  have hlen : ∀ q, (Q q).length = (xs (.client q)).length := by
    intro q
    simpa using (congrArg List.length (h.objects q)).symm
  let queues := processQueues ++ objectQueues
  have hqueues : queues.Nodup := by
    refine List.nodup_append.mpr ⟨processQueues_nodup, objectQueues_nodup, ?_⟩
    intro q hq r hr he
    rw [mem_processQueues] at hq
    rw [he, mem_objectQueues.mp hr] at hq
    cases hq
  have hused : (queues.flatMap fun q => xs (.client q)).Nodup :=
    entries_nodup hqueues (fun q _ => h.lists.nodup _) fun q _ r _ l hl hl' => by
      simpa using h.lists.disjoint hl hl'
  have hall : (xs .freeLinks ++ queues.flatMap fun q => xs (.client q)).length =
      QUEUE_MAX_LINKS := by
    refine length_of_all (List.nodup_append.mpr ⟨h.lists.nodup _, hused, ?_⟩) fun l => ?_
    · intro l hl l' hl' he
      obtain ⟨q, _, hq⟩ := List.mem_flatMap.mp hl'
      cases h.lists.disjoint hl (he ▸ hq)
    · rcases h.all l with ⟨q | q, hl⟩ | ⟨p, hp⟩
      · exact List.mem_append_left _ hl
      · refine List.mem_append_right _ (List.mem_flatMap.mpr ⟨q, ?_, hl⟩)
        simp only [queues, List.mem_append, mem_processQueues, mem_objectQueues]
        cases q.isProc <;> simp
      · cases hp
  rw [h.lists.links_eq]
  simp only [queues, List.length_append, List.flatMap_append, List.length_flatMap] at hall
  simp only [entries, hlen]
  omega

/-- Each process is on one process queue, and waits on at most one object. -/
theorem Sleepers.entries (h : Sleepers a home waits) :
    entries processQueues a.queue = PROCESS_MAX_PROCS ∧
      entries objectQueues a.queue ≤ PROCESS_MAX_PROCS := by
  have hpl := h.placed
  constructor
  · have hnd : (processQueues.flatMap a.queue).Nodup :=
      entries_nodup processQueues_nodup (fun q _ => hpl.nodup q) fun q hq r hr p hp hp' => by
        rw [hpl.mem_proc (mem_processQueues.mp hq)] at hp
        rw [hpl.mem_proc (mem_processQueues.mp hr)] at hp'
        exact hp.symm.trans hp'
    have hlen := length_of_all hnd fun p => List.mem_flatMap.mpr
      ⟨home p, mem_processQueues.mpr (hpl.isProc p), (hpl.mem_proc (hpl.isProc p) p).mpr rfl⟩
    simpa [dlxos.entries, List.length_flatMap] using hlen
  · have hnd : (objectQueues.flatMap a.queue).Nodup :=
      entries_nodup objectQueues_nodup (fun q _ => hpl.nodup q) fun q hq r hr p hp hp' => by
        rw [hpl.mem_wait (mem_objectQueues.mp hq)] at hp
        rw [hpl.mem_wait (mem_objectQueues.mp hr)] at hp'
        exact Option.some.inj (hp.symm.trans hp')
    have hlen := hnd.length_le_card
    simpa [dlxos.entries, List.length_flatMap] using hlen

/-! ## The lines about links -/

/-- The lines of `process.c` and `synch.c` that say that a link could not be
allocated, inserted or removed. -/
def linkLines : List String := [
  "FATAL ERROR: could not get Queue Link in ProcessFreeResources!",
  "FATAL ERROR: could not insert PCB link into freepcbs queue in ProcessFreeResources!",
  "FATAL ERROR: could not remove zombie process from zombieQueue in ProcessSchedule!",
  "FATAL ERROR: could not remove process from run Queue in ProcessSuspend!",
  "FATAL ERROR: could not get Queue Link in ProcessSuspend!",
  "FATAL ERROR: could not insert suspend PCB into waitQueue!",
  "FATAL ERROR: could not remove wakeup PCB from waitQueue in ProcessWakeup!",
  "FATAL ERROR: could not get link for wakeup PCB in ProcessWakeup!",
  "FATAL ERROR: could not insert link into runQueue in ProcessWakeup!",
  "FATAL ERROR: could not remove link from queue in ProcessDestroy!",
  "FATAL ERROR: could not get link for zombie PCB in ProcessDestroy!",
  "FATAL ERROR: could not remove link from freepcbsQueue in ProcessFork!",
  "FATAL ERROR: could not get link for forked PCB in ProcessFork!",
  "FATAL ERROR: could not insert link into runQueue in ProcessFork!",
  "FATAL ERROR: could not allocate link in ProcessModuleInit!",
  "FATAL ERROR: could not insert PCB link into queue in ProcessModuleInit!",
  "FATAL ERROR: could not allocate link for semaphore queue in SemWait!",
  "FATAL ERROR: could not insert new link into semaphore waiting queue in SemWait!",
  "FATAL ERROR: could not remove link from semaphore queue in SemSignal!",
  "FATAL ERROR: could not allocate link for lock queue in LockAcquire!",
  "FATAL ERROR: could not insert new link into lock waiting queue in LockAcquire!",
  "FATAL ERROR: could not remove link from lock queue in LockRelease!",
  "FATAL ERROR: could not allocate link for cond var queue in CondWait!",
  "FATAL ERROR: could not insert new link into cond waiting queue in CondWait!",
  "FATAL ERROR: could not remove link from conditional variable queue in CondSignal!"]

/-- The simulation did not end for want of a link, or at a NULL pointer. -/
def Halt.Linked (x : Halt) : Prop := x ≠ .crash ∧ ∀ line ∈ linkLines, x ≠ .exitsim line

theorem linked_of_line {line : String} (h : line ∉ linkLines) : (Halt.exitsim line).Linked := by
  refine ⟨by simp, fun line' hmem he => h ?_⟩
  rw [Halt.exitsim.inj he]
  exact hmem

theorem linked_of_last {line : String} (h : line ∈ lastLines) : (Halt.exitsim line).Linked :=
  linked_of_line ((by decide : ∀ line ∈ lastLines, line ∉ linkLines) line h)

/-- Where the routine does not end, it has not failed on a link. -/
def Links {α : Type} (r : Except Halt α) : Prop := ∀ x, r = .error x → x.Linked

theorem Links.ok {α : Type} {r : Except Halt α} {y : α} (h : r = .ok y) : Links r := by
  rintro x hx
  cases h.symm.trans hx

/-- Both parts of a sequence do so. -/
theorem Links.andThen {α β : Type} {y : Except Halt α} {f : α → Except Halt β} (hy : Links y)
    (hf : ∀ v, y = .ok v → Links (f v)) : Links (y >>= f) := by
  rcases y with e | v
  · rintro x ⟨⟩
    exact hy e rfl
  · exact hf v rfl

theorem Links.bind {α β : Type} {y : K α} {f : α → K β} (hy : Links (y k))
    (hf : ∀ v k', y k = .ok (v, k') → Links (f v k')) : Links ((y >>= f) k) := by
  rcases hrun : y k with e | ⟨v, k'⟩
  · rw [K.bind_error hrun]
    rintro x ⟨⟩
    exact hy e hrun
  · rw [K.bind_ok hrun]
    exact hf v k' hrun

theorem Meets.links {r : Except Halt (Outcome × Kernel)} {o : Option (System × Result)}
    (h : Meets k r o) (ho : o ≠ none) : Links r := by
  rcases o with _ | ⟨b, res⟩
  · exact absurd rfl ho
  · obtain ⟨out, k', hr, _⟩ := h
    exact .ok hr

/-- The last process that runs goes to sleep. -/
theorem BeforeSleep.links (h : BeforeSleep k d p) (place : Sleep) :
    Links ((do ProcessSleep; return .sleeps place : K Outcome) k) := by
  by_cases hlast : (d.move p .runQueue .waitQueue).queue .runQueue = []
  · obtain ⟨home, waits, hpl⟩ := h.placed
    obtain ⟨ps, hq⟩ := current_cons h.current
    obtain ⟨k1, hrun, hsim, _⟩ := ProcessSuspend.sim h.sim hpl
      ((hpl.mem_proc rfl p).mp (by simp [hq]))
    obtain ⟨line, hline, hstop⟩ := ProcessSchedule.last hsim.rep hlast true
    intro x hx
    rw [ProcessSleep, K.bind_error (e := .exitsim line)] at hx
    · cases hx
      exact linked_of_last hline
    · rw [K.bind_ok (GetCurrentPid_run h.pcb), K.bind_ok hrun, hstop]
  · exact (h.meets place rfl).links (by rw [if_neg hlast]; simp)

theorem sleepOn.links {place : Sleep} (h : Runs k a p) (hw : q.isProc = false) (hm : k.intrs = 15)
    (noLink noInsert : String) :
    Links ((do
      waitOn q noLink noInsert
      ProcessSleep
      return .sleeps place : K Outcome) k) := by
  obtain ⟨k1, hrun, hbefore, _⟩ := waitOn.before h hw hm noLink noInsert
  rw [K.bind_ok hrun]
  exact hbefore.links place

theorem SemWait.links (h : Runs k a p) (s : SemId) : Links (SemWait s k) := by
  have h' := h.withIntrs 15
  by_cases hn : (a.sems s).count ≤ 0
  · rw [SemWait, DisableIntrs, K.bind_ok (SetIntrs_run 15 k), K.bind_ok (K.read_run _),
      h'.sim.sems, if_pos hn]
    exact sleepOn.links h' rfl rfl _ _
  · exact (SemWait.meets h s).links (by simp [System.semWait, hn])

theorem LockAcquire.links (h : Runs k a p) (l : LockId) : Links (LockAcquire l k) := by
  have h' := h.withIntrs 15
  by_cases hp : (a.locks l).pid ≠ (p : Int) ∧ 0 ≤ (a.locks l).pid
  · rw [LockAcquire, DisableIntrs, K.bind_ok (SetIntrs_run 15 k),
      K.bind_ok (GetCurrentPid_run h'.pcb), K.bind_ok (K.read_run _), h'.sim.locks, if_neg hp.1,
      if_pos hp.2]
    exact sleepOn.links h' rfl rfl _ _
  · refine (LockAcquire.meets h l rfl).links ?_
    unfold System.lockAcquire
    rw [not_and, not_le] at hp
    split
    · simp
    · rw [if_neg (by have := hp ‹_›; omega)]
      simp

theorem CondWait.links (h : Runs k a p) (c : CondId) : Links (CondWait c k) := by
  have h' := h.withIntrs 15
  by_cases hp : (a.locks (a.conds c).lock).pid = (p : Int)
  · obtain ⟨d, k2, _, hrun, hbefore, _⟩ := CondWait.before h rfl hp
    rw [hrun]
    exact hbefore.links _
  · rw [CondWait, DisableIntrs, K.bind_ok (SetIntrs_run 15 k),
      K.bind_ok (GetCurrentPid_run h'.pcb), K.bind_ok (K.read_run _), h'.sim.conds, h'.sim.locks]
    simp only [ne_eq, hp, not_false_eq_true, if_true]
    rintro x ⟨⟩
    exact linked_of_line (by decide)

/-- A wrapper that checks a handle. -/
theorem Links.handle {max : Nat} {h : Int} (inuse : Fin max → Bool) {f : Fin max → K Outcome}
    {y : K Outcome} (hf : ∀ j, Links (f j k))
    (hy : y k = (slot? max h).elim (pure (.returns SYNC_FAIL) : K Outcome)
      (fun j => if inuse j then f j else pure (.returns SYNC_FAIL)) k) : Links (y k) := by
  rw [hy]
  rcases slot? max h with _ | j
  · exact .ok rfl
  · simp only [Option.elim]
    split
    · exact hf j
    · exact .ok rfl

theorem LockHandleAcquire.links (h : Runs k a p) (lock : Int) :
    Links (LockHandleAcquire lock k) := by
  refine .handle (h := lock) (fun j => (k.locks j).inuse) (LockAcquire.links h) ?_
  rw [LockHandleAcquire, K.bind_ok (K.read_run _)]
  cases slot? MAX_LOCKS lock <;> rfl

theorem trap.links (h : Runs k a p) (hc : c.isSync = true) : Links (trap c k) := by
  cases c with
  | semWait h' =>
    refine .handle (h := h') (fun j => (k.sems j).inuse) (SemWait.links h) ?_
    rw [trap, SemHandleWait, K.bind_ok (K.read_run _)]
    cases slot? MAX_SEMS h' <;> rfl
  | lockAcquire h' => exact LockHandleAcquire.links h h'
  | condWait h' =>
    refine .handle (h := h') (fun j => (k.conds j).inuse) (CondWait.links h) ?_
    rw [trap, CondHandleWait, K.bind_ok (K.read_run _)]
    cases slot? MAX_CONDS h' <;> rfl
  | semCreate | lockCreate => exact (trap.meets h hc 0).links (by simp [System.call])
  | condCreate h' =>
    refine (trap.meets h hc 0).links ?_
    simp only [System.call]
    cases slot? MAX_LOCKS h' <;> simp
  | semSignal h' =>
    refine (trap.meets h hc 0).links ?_
    simp only [System.call]
    cases a.sem? h' <;> simp
  | lockRelease h' =>
    refine (trap.meets h hc 0).links ?_
    simp only [System.call]
    cases a.lock? h' <;> simp
  | condSignal h' | condBroadcast h' =>
    refine (trap.meets h hc 0).links ?_
    simp only [System.call]
    cases a.cond? h' <;> simp
  | shareCreatePage | shareMapPage => cases hc

theorem afterSleep.links (h : Runs k a p) (place : Sleep) : Links (afterSleep place k) := by
  cases place with
  | condWait c intrval =>
    rw [afterSleep, RestoreIntrs, K.bind_ok (SetIntrs_run intrval k), K.bind_ok (K.read_run _)]
    have hacq := LockHandleAcquire.links (h.withIntrs intrval)
      (((k.withIntrs intrval).conds c).lock : Nat)
    refine .bind hacq fun out k1 _ => ?_
    split <;> exact .ok rfl
  | _ => exact .ok rfl

/-- A test that stops the simulation for another reason. -/
theorem Links.stop {α : Type} {c : Prop} [Decidable c] {line : String} {f : Unit → K α}
    (h : line ∉ linkLines) (hf : Links (f () k)) :
    Links ((if c then (exitsim line : K Unit) >>= f else f ()) k) := by
  split
  · rintro x ⟨⟩
    exact linked_of_line h
  · exact hf

/-! ## Memory -/

theorem allocPage.links (k : Kernel) : Links (allocPage k) := by
  unfold allocPage
  split
  · rintro x ⟨⟩
    exact ⟨by simp, fun line _ => by simp⟩
  · exact .ok rfl

theorem forkMemory.links (p : Pid) (k : Kernel) : Links (forkMemory p k) := by
  unfold forkMemory
  refine .bind (.ok rfl) fun _ k1 _ => .bind (allocPage.links k1) fun page k2 _ => ?_
  refine .stop (by decide) (.bind (.ok rfl) fun _ k3 _ => ?_)
  refine .bind (allocPage.links k3) fun stack k4 _ => ?_
  exact .stop (by decide) (.ok rfl)

theorem MemoryCreateSharedPage.links (p : Pid) (k : Kernel) :
    Links (MemoryCreateSharedPage p k) := by
  unfold MemoryCreateSharedPage
  refine .bind (.ok rfl) fun intrs k1 _ => .bind (.ok rfl) fun k2 k3 _ => ?_
  split
  · exact .ok rfl
  · cases findShared k2 0 with
    | none => exact .ok rfl
    | some i =>
      refine .bind (allocPage.links _) fun page k4 _ => ?_
      exact .stop (by decide) (.ok rfl)

/-! ## One step -/

theorem exitTrap.links (h : Runs k a p) : Links (exitTrap k) := by
  obtain ⟨home, waits, hsl⟩ := h.sleepers
  obtain ⟨ps, hq⟩ := current_cons h.current
  rcases ps with _ | ⟨r, rs⟩
  · have hpl := hsl.placed
    obtain ⟨qs, hrun, hrep⟩ := ProcessDestroy.spec h.sim.rep hpl.waitsOnce
      (show p ∈ a.queue .runQueue by simp [hq]) hsl.zombies
    obtain ⟨line, hline, hstop⟩ := ProcessSchedule.last
      (k := (k.withStatus p PROCESS_STATUS_ZOMBIE).relink qs) hrep (by simp [hq]) false
    intro x hx
    rw [exitTrap, K.bind_ok (GetCurrentPid_run h.pcb), K.bind_ok hrun, hstop] at hx
    cases hx
    exact linked_of_last hline
  · obtain ⟨_, k', hrun, _⟩ := (exitTrap.sim h.sim hsl h.pcb hq).2 r rs rfl
    exact .ok hrun

theorem finish.links (m : Machine) (p : Pid) (c : Call) (out : Outcome) (k : Kernel) :
    Links (m.finish p c out k) := by
  cases out <;> exact .ok rfl

theorem returning.links {y : K Int} (hy : Links (y k)) : Links (returning y k) :=
  .bind hy fun _ _ _ => .ok rfl

/-- A call, whichever it is. -/
theorem Runs.links (h : Runs k a p) (c : Call) : Links (trap c k) := by
  cases c with
  | shareCreatePage =>
    refine .bind (.ok (GetCurrentPid_run h.pcb)) fun q k' _ => ?_
    exact returning.links (MemoryCreateSharedPage.links q k')
  | shareMapPage handle =>
    refine .bind (.ok (GetCurrentPid_run h.pcb)) fun q k' hrun => ?_
    obtain ⟨rfl, rfl⟩ := Prod.mk.inj (Except.ok.inj (hrun.symm.trans (GetCurrentPid_run h.pcb)))
    obtain ⟨v, k1, hmap, _⟩ := mmap.sim h.sim q handle
    exact returning.links (.ok hmap)
  | _ => exact trap.links h rfl

theorem ProcessFork.links (h : Sim k a) (hpl : Placed a.queue home waits) (isUser loads : Bool) :
    Links (ProcessFork isUser loads k) := by
  rcases hq : a.queue .freepcbs with _ | ⟨p, ps⟩
  · rw [ProcessFork.nil h.rep hq]
    rintro x ⟨⟩
    exact linked_of_line (by decide)
  · obtain ⟨k0, _, herr, hok⟩ := ProcessFork.sim h hpl hq isUser loads
    rcases hm : forkMemory p k0 with x | ⟨⟨⟩, k1⟩
    · rw [herr x hm]
      rintro y ⟨⟩
      exact forkMemory.links p k0 x hm
    · have hok := hok k1 hm
      split at hok
      · obtain ⟨_, _, hrun, _⟩ := hok
        exact .ok hrun
      · obtain ⟨_, hrun, _⟩ := hok
        exact .ok hrun

theorem ProcessSchedule.links (h : Sim k a) (hsl : Sleepers a home waits)
    (hp : a.current = some p) : Links (ProcessSchedule false k) := by
  obtain ⟨ps, hq⟩ := current_cons hp
  obtain ⟨k', hrun, _⟩ := ProcessSchedule.sim h hsl.placed hq hsl.zombies
  exact .ok hrun

/-- No entry of the kernel fails on a link. -/
theorem Good.step_links (h : Good m) (hr : m.Ready e) : Links (m.step e) := by
  obtain ⟨home, waits, hsl⟩ := h.inv.sleepers
  have hsim := h.sim.withIntrs e.level
  have hcur : ∀ q, m.system.current = some q →
      GetCurrentPid (m.kernel.withIntrs e.level) = .ok (q, m.kernel.withIntrs e.level) :=
    fun q hq => GetCurrentPid_run (h.current.trans hq)
  have hready := (h.ready e).mp hr
  obtain ⟨event, level⟩ := e
  cases event with
  | timer =>
    obtain ⟨p, hp⟩ := Option.ne_none_iff_exists'.mp hready
    exact .andThen (ProcessSchedule.links hsim hsl hp) fun _ _ => .ok rfl
  | contextSwitch =>
    obtain ⟨p, hp, _⟩ := hready
    exact .andThen (ProcessSchedule.links hsim hsl hp) fun _ _ => .ok rfl
  | exit =>
    obtain ⟨p, hp, _⟩ := hready
    exact .andThen (exitTrap.links (h.runs hp level)) fun _ _ => .ok rfl
  | fork isUser loads =>
    exact .andThen (ProcessFork.links hsim hsl.placed isUser loads) fun _ _ => .ok rfl
  | call c =>
    obtain ⟨p, hp, _⟩ := hready
    refine .andThen (.ok (hcur p hp)) fun v hv => ?_
    obtain rfl := Except.ok.inj (hv.symm.trans (hcur p hp))
    exact .andThen ((h.runs hp level).links c) fun v _ => finish.links m p c v.1 v.2
  | resume =>
    obtain ⟨p, hp, hstop⟩ := hready
    refine .andThen (.ok (hcur p hp)) fun v hv => ?_
    obtain rfl := Except.ok.inj (hv.symm.trans (hcur p hp))
    rcases hf : m.frames p with _ | f
    · simp [Machine.system, hf] at hstop
    · refine .andThen (.ok (show deref (m.frames p) _ = .ok (f, m.kernel.withIntrs level) by
        rw [hf]; rfl)) fun v hv => ?_
      rw [hf] at hv
      obtain rfl := Except.ok.inj hv
      have hafter := afterSleep.links (h.runs hp f.level) f.place
      exact .andThen hafter fun v _ => finish.links m p f.call v.1 v.2

/-! ## The budget -/

/-- Most links are free, and no entry of the kernel fails on a link. -/
structure LinksOk (m : Machine) : Prop where
  /-- `freeLinks` holds all links but one for each entry of the other queues. -/
  free : (m.kernel.qs.store.links .freeLinks).length =
    QUEUE_MAX_LINKS - entries processQueues m.queue - entries objectQueues m.queue
  /-- `freeLinks` knows its length. -/
  length : AQueueLength .freeLinks m.kernel.qs.store =
    (m.kernel.qs.store.links .freeLinks).length
  enough : QUEUE_MAX_LINKS - 2 * PROCESS_MAX_PROCS ≤
    (m.kernel.qs.store.links .freeLinks).length
  steps : ∀ e, m.Ready e → Links (m.step e)

theorem queue_links_never_run_out :
    (∀ b, ∃ m, boot b = .ok m) ∧ ∀ m, Reachable m → LinksOk m := by
  refine ⟨fun b => (boot_good b).imp fun _ h => h.1, fun m h => ?_⟩
  have hg := h.good
  obtain ⟨home, waits, hsl⟩ := hg.inv.sleepers
  have hcount := hg.sim.rep.count
  obtain ⟨hproc, hobject⟩ := hsl.entries
  refine ⟨?_, ?_, ?_, fun e => hg.step_links⟩
  · change _ = QUEUE_MAX_LINKS - entries processQueues m.system.queue -
      entries objectQueues m.system.queue
    omega
  · obtain ⟨xs, hxs⟩ := hg.sim.rep
    rw [hxs.lists.links_eq]
    exact hxs.lists.nitems .freeLinks
  · omega

/-- Three processes run, and one sleeps, so two links are in use for it. -/
theorem links_of_a_run : ∃ m, Reachable m ∧ m.queue (.sem 0) = [31] ∧
    (m.kernel.qs.store.links .freeLinks).length = 367 ∧ LinksOk m := by
  obtain ⟨m, hm, hq⟩ := exists_reachable
    [.fork true true, .fork true true, .fork true true, .call (.semCreate 0), .call (.semWait 0)]
    (fun a => a.queue (.sem 0) = [31] ∧ entries processQueues a.queue = 32 ∧
      entries objectQueues a.queue = 1) (by decide +kernel)
  have hok := queue_links_never_run_out.2 m hm
  refine ⟨m, hm, hq.1, ?_, hok⟩
  have hfree := hok.free
  change _ = QUEUE_MAX_LINKS - entries processQueues m.system.queue -
    entries objectQueues m.system.queue at hfree
  rw [hq.2.1, hq.2.2] at hfree
  exact hfree

end dlxos
