-- One lemma for each routine of `process.c`: where the queues hold the lists
-- of `Q`, the routine ends, and it moves its process from one list to
-- another. The kernel that it leaves is written out, so that what it does not
-- touch can be read off.
import DlxOs.KernelQueues
import DlxOs.Pages
import DlxOs.System

namespace dlxos

open Function

/-- The kernel after its queues were written. -/
@[simps -fullyApplied] def Kernel.relink (k : Kernel) (qs : Queues) : Kernel :=
  { k with qs, exposed := k.exposed || k.intrs != 15 }

def PCB.withStatus (b : PCB) (status : Word) : PCB :=
  { b with flags := (b.flags &&& ~~~PROCESS_STATUS_MASK) ||| status }

/-- The kernel after `ProcessSetStatus`. -/
@[simps -fullyApplied] def Kernel.withStatus (k : Kernel) (p : Pid) (status : Word) : Kernel :=
  { k with pcbs := update k.pcbs p ((k.pcbs p).withStatus status) }

@[simp] theorem relink_relink (k : Kernel) (a b : Queues) : (k.relink a).relink b = k.relink b := by
  simp [Kernel.relink]

@[simps -fullyApplied] def Kernel.withQueues (k : Kernel) (qs : Queues) : Kernel := { k with qs }

@[simps -fullyApplied] def Kernel.withIntrs (k : Kernel) (level : Level) : Kernel :=
  { k with intrs := level }

@[simps -fullyApplied] def Kernel.withCurrent (k : Kernel) (c : Option Pid) : Kernel :=
  { k with currentPCB := c }

/-- With interrupts disabled the write is protected. -/
theorem relink_masked (k : Kernel) (qs : Queues) :
    (k.withIntrs 15).relink qs = (k.withQueues qs).withIntrs 15 := by
  simp [Kernel.relink, Kernel.withIntrs, Kernel.withQueues]

theorem SetIntrs_run (level : Level) (k : Kernel) :
    SetIntrs level k = .ok (k.intrs, k.withIntrs level) := rfl

@[simp] theorem withStatus_relink (k : Kernel) (p : Pid) (w : Word) (qs : Queues) :
    (k.relink qs).withStatus p w = (k.withStatus p w).relink qs := rfl

theorem ProcessSetStatus_run (p : Pid) (w : Word) (k : Kernel) :
    ProcessSetStatus p w k = .ok ((), k.withStatus p w) := rfl

/-- The process is on no process queue. -/
def OffProc (Q : KQueue → List Pid) (p : Pid) : Prop := ∀ q, q.isProc = true → p ∉ Q q

variable {k k' : Kernel} {Q : KQueue → List Pid} {p : Pid} {q : KQueue}

theorem WaitsOnce.updateProc (h : WaitsOnce Q) (hq : q.isProc = true) (ps : List Pid) :
    WaitsOnce (update Q q ps) := by
  have hne : ∀ r : KQueue, r.isProc = false → r ≠ q := by
    rintro r hr rfl
    rw [hq] at hr
    cases hr
  constructor
  · intro r hr
    rw [update_of_ne (hne r hr)]
    exact h.nodup r hr
  · intro r r' p hr hr' hp hp'
    rw [update_of_ne (hne r hr)] at hp
    rw [update_of_ne (hne r' hr')] at hp'
    exact h.unique r r' p hr hr' hp hp'

theorem Rep.offProc_erase {qs : Queues} (h : Rep qs Q) (hq : q.isProc = true) (hp : p ∈ Q q) :
    OffProc (update Q q ((Q q).erase p)) p := by
  obtain ⟨xs, h⟩ := h
  intro r hr hpr
  by_cases hrq : r = q
  · subst hrq
    rw [update_self] at hpr
    exact (h.proc_nodup hq).not_mem_erase hpr
  · rw [update_of_ne hrq] at hpr
    exact hrq (h.proc_unique hr hq hpr hp)

/-! ## The link of a process -/

theorem queueEmpty_run (h : Rep k.qs Q) (q : KQueue) :
    queueEmpty q k = .ok ((Q q).isEmpty, k) := by
  rw [queueEmpty, h.empty_eq]

theorem firstObject_run (h : Rep k.qs Q) {ps : List Pid} (hq : Q q = p :: ps) :
    firstObject q k = .ok (p, k) := by
  obtain ⟨l, _, hfirst, ho, _, _⟩ := h.removeFirst hq
  rw [firstObject, K.bind_ok (K.read_run k), hfirst, deref, K.bind_ok (K.pure_run l k), ho]
  rfl

theorem removePcbLink.spec (h : Rep k.qs Q) (hq : q.isProc = true) (hp : p ∈ Q q)
    (fatal : String) :
    ∃ qs', removePcbLink p fatal k = .ok ((), k.relink qs') ∧
      Rep qs' (update Q q ((Q q).erase p)) := by
  obtain ⟨s', hrun, hrep⟩ := h.remove hq hp
  refine ⟨_, ?_, hrep⟩
  simp [removePcbLink, K.bind_run, K.read_run, K.queue, hrun, setPcbLink, K.write_run,
    K.pure_run, Kernel.relink]

/-- The process has a link, which is on no queue. -/
def Hand (qs : Queues) (Q : KQueue → List Pid) (p : Pid) : Prop :=
  ∃ l, Holding qs Q l p ∧ qs.link p = some l

theorem allocPcbLink.spec (h : Rep k.qs Q) (hw : WaitsOnce Q) (hp : OffProc Q p)
    (fatal : String) :
    ∃ qs', allocPcbLink p fatal k = .ok ((), k.relink qs') ∧ Hand qs' Q p := by
  obtain ⟨l, s', hrun, hold⟩ := h.alloc hw p
  refine ⟨⟨s', update k.qs.link p (some l)⟩, ?_, l, hold _ ?_, by simp⟩
  · simp [allocPcbLink, K.bind_run, K.queue, hrun, setPcbLink, K.write_run, K.pure_run,
      Kernel.relink]
  · intro r hr p' hp'
    have hne : p' ≠ p := fun he => hp r hr (he ▸ hp')
    rw [update_of_ne hne]

theorem insertPcbLast.spec (h : Hand k.qs Q p) (q : KQueue) (fatal : String) :
    ∃ qs', insertPcbLast q p fatal k = .ok ((), k.relink qs') ∧
      Rep qs' (update Q q (Q q ++ [p])) := by
  obtain ⟨l, hold, hlink⟩ := h
  obtain ⟨s', hrun, hrep⟩ := hold.insertLast q fun _ => hlink
  refine ⟨_, ?_, hrep⟩
  simp [insertPcbLast, K.bind_run, K.read_run, K.queue, hlink, hrun, K.pure_run, Kernel.relink]

theorem insertPcbFirst.spec (h : Hand k.qs Q p) (q : KQueue) (fatal : String) :
    ∃ qs', insertPcbFirst q p fatal k = .ok ((), k.relink qs') ∧
      Rep qs' (update Q q (p :: Q q)) := by
  obtain ⟨l, hold, hlink⟩ := h
  obtain ⟨s', hrun, hrep⟩ := hold.insertFirst q fun _ => hlink
  refine ⟨_, ?_, hrep⟩
  simp [insertPcbFirst, K.bind_run, K.read_run, K.queue, hlink, hrun, K.pure_run, Kernel.relink]

/-- A process moves from one process queue to the end of another one. -/
theorem moveLink.spec (h : Rep k.qs Q) (hw : WaitsOnce Q) (hq : q.isProc = true) (hp : p ∈ Q q)
    (r : KQueue) (noRemove noLink noInsert : String) :
    ∃ qs', (do
        removePcbLink p noRemove
        allocPcbLink p noLink
        insertPcbLast r p noInsert : K Unit) k = .ok ((), k.relink qs') ∧
      Rep qs' (moveLast Q p q r) := by
  obtain ⟨qs1, hrun1, hrep1⟩ := removePcbLink.spec h hq hp noRemove
  obtain ⟨qs2, hrun2, hhand⟩ := allocPcbLink.spec (k := k.relink qs1) hrep1 (hw.updateProc hq _)
    (h.offProc_erase hq hp) noLink
  rw [relink_relink] at hrun2
  obtain ⟨qs3, hrun3, hrep3⟩ := insertPcbLast.spec (k := k.relink qs2) hhand r noInsert
  rw [relink_relink] at hrun3
  exact ⟨qs3, by rw [K.bind_ok hrun1, K.bind_ok hrun2, hrun3], hrep3⟩

/-! ## Sleeping and waking up -/

theorem ASSERT_run {cond : Bool} (h : cond = true) (line : String) (k : Kernel) :
    ASSERT cond line k = .ok ((), k) := by
  rw [ASSERT, if_pos h]
  rfl

theorem ProcessSuspend.spec (h : Rep k.qs Q) (hw : WaitsOnce Q) (hp : p ∈ Q .runQueue)
    (hst : hasStatus (k.pcbs p) PROCESS_STATUS_RUNNABLE = true) :
    ∃ qs', ProcessSuspend p k = .ok ((), (k.withStatus p PROCESS_STATUS_WAITING).relink qs') ∧
      Rep qs' (moveLast Q p .runQueue .waitQueue) := by
  obtain ⟨qs', hrun, hrep⟩ := moveLink.spec (k := k.withStatus p PROCESS_STATUS_WAITING) h hw
    (q := .runQueue) rfl hp .waitQueue _ _ _
  refine ⟨qs', ?_, hrep⟩
  rw [ProcessSuspend, K.bind_ok (K.read_run k), K.bind_ok (ASSERT_run hst _ k),
    K.bind_ok (ProcessSetStatus_run p _ k), hrun]

theorem ProcessWakeup.spec (h : Rep k.qs Q) (hw : WaitsOnce Q) (hp : p ∈ Q .waitQueue)
    (hst : hasStatus (k.pcbs p) PROCESS_STATUS_WAITING = true) :
    ∃ qs', ProcessWakeup p k = .ok ((), (k.withStatus p PROCESS_STATUS_RUNNABLE).relink qs') ∧
      Rep qs' (moveLast Q p .waitQueue .runQueue) := by
  obtain ⟨qs', hrun, hrep⟩ := moveLink.spec (k := k.withStatus p PROCESS_STATUS_RUNNABLE) h hw
    (q := .waitQueue) rfl hp .runQueue _ _ _
  refine ⟨qs', ?_, hrep⟩
  rw [ProcessWakeup, K.bind_ok (K.read_run k), K.bind_ok (ASSERT_run hst _ k),
    K.bind_ok (ProcessSetStatus_run p _ k), hrun]

theorem ProcessDestroy.spec (h : Rep k.qs Q) (hw : WaitsOnce Q) (hp : p ∈ Q .runQueue)
    (hz : Q .zombieQueue = []) :
    ∃ qs', ProcessDestroy p k = .ok ((), (k.withStatus p PROCESS_STATUS_ZOMBIE).relink qs') ∧
      Rep qs' (update (update Q .runQueue ((Q .runQueue).erase p)) .zombieQueue [p]) := by
  obtain ⟨qs1, hrun1, hrep1⟩ := removePcbLink.spec (k := k.withStatus p PROCESS_STATUS_ZOMBIE) h
    rfl hp "FATAL ERROR: could not remove link from queue in ProcessDestroy!"
  obtain ⟨qs2, hrun2, hhand⟩ := allocPcbLink.spec
    (k := (k.withStatus p PROCESS_STATUS_ZOMBIE).relink qs1) hrep1 (hw.updateProc rfl _)
    (h.offProc_erase rfl hp) "FATAL ERROR: could not get link for zombie PCB in ProcessDestroy!"
  rw [relink_relink] at hrun2
  obtain ⟨qs3, hrun3, hrep3⟩ := insertPcbFirst.spec
    (k := (k.withStatus p PROCESS_STATUS_ZOMBIE).relink qs2) hhand .zombieQueue
    "FATAL ERROR: could not insert link into runQueue in ProcessWakeup!"
  rw [relink_relink] at hrun3
  refine ⟨qs3, ?_, ?_⟩
  · rw [ProcessDestroy, K.bind_ok (ProcessSetStatus_run p _ k), K.bind_ok hrun1, K.bind_ok hrun2,
      hrun3]
  · simpa [hz] using hrep3

/-! ## The end of a process -/

/-- The kernel with all flags of a process written. -/
@[simps -fullyApplied] def Kernel.withFlags (k : Kernel) (p : Pid) (flags : Word) : Kernel :=
  { k with pcbs := update k.pcbs p { k.pcbs p with flags } }

@[simp] theorem withFlags_relink (k : Kernel) (p : Pid) (w : Word) (qs : Queues) :
    (k.relink qs).withFlags p w = (k.withFlags p w).relink qs := rfl

/-- `ProcessSetStatus` has no effect on a PCB that was just freed. -/
theorem withStatus_free (hk : (k.pcbs p).flags = PROCESS_STATUS_FREE) :
    k.withStatus p PROCESS_STATUS_FREE = k := by
  have : (k.pcbs p).withStatus PROCESS_STATUS_FREE = k.pcbs p := by
    rw [PCB.withStatus, hk, show (PROCESS_STATUS_FREE &&& ~~~PROCESS_STATUS_MASK) |||
      PROCESS_STATUS_FREE = PROCESS_STATUS_FREE by decide, ← hk]
  rw [Kernel.withStatus, this, update_eq_self]

/-- Page numbers are not in the fields that the queue routines write. -/
theorem PagesOk.congr {live live' : Pid → Prop} (h : PagesOk k live) (hm : k'.mem = k.mem)
    (hs : k'.spages = k.spages)
    (hp : ∀ p, (k'.pcbs p).npages = (k.pcbs p).npages ∧
      (k'.pcbs p).pagetable = (k.pcbs p).pagetable ∧
      (k'.pcbs p).sysStackArea = (k.pcbs p).sysStackArea)
    (hl : ∀ p, live' p → live p) : PagesOk k' live' := by
  refine ⟨?_, ?_, ?_, ?_, ?_⟩
  · rw [hm]; exact h.bits
  · rw [hs]; exact h.shared
  all_goals intro r
  all_goals obtain ⟨h1, h2, h3⟩ := hp r
  · rw [h1]; exact h.npages r
  · rw [h1, h2]; exact h.ptes r
  · rw [h3]; exact fun hr => h.stack r (hl r hr)

theorem ProcessFreeResources.spec {live : Pid → Prop} (h : Rep k.qs Q) (hw : WaitsOnce Q)
    (hp : OffProc Q p) (hok : PagesOk k live) (hl : live p) :
    ∃ qs' k', ProcessFreeResources p k = .ok ((), k') ∧
      freeMemory p ((k.withFlags p PROCESS_STATUS_FREE).relink qs') = .ok ((), k') ∧
      MemStep p ((k.withFlags p PROCESS_STATUS_FREE).relink qs') k' ∧ k'.qs = qs' ∧
      Rep qs' (update Q .freepcbs (Q .freepcbs ++ [p])) ∧ PagesOk k' live := by
  obtain ⟨qs1, hrun1, hhand⟩ := allocPcbLink.spec h hw hp
    "FATAL ERROR: could not get Queue Link in ProcessFreeResources!"
  obtain ⟨qs2, hrun2, hrep⟩ := insertPcbLast.spec
    (k := (k.withFlags p PROCESS_STATUS_FREE).relink qs1) hhand .freepcbs
    "FATAL ERROR: could not insert PCB link into freepcbs queue in ProcessFreeResources!"
  rw [relink_relink] at hrun2
  have hok' : PagesOk ((k.withFlags p PROCESS_STATUS_FREE).relink qs2) live := by
    refine hok.congr rfl rfl ?_ fun _ => id
    intro r
    by_cases hr : r = p
    · subst hr; simp
    · simp [hr]
  obtain ⟨k3, hrun3, hstep, hok3⟩ := freeMemory.spec hok' hl
  have hfree : (k3.pcbs p).flags = PROCESS_STATUS_FREE := by rw [hstep.flags]; simp
  refine ⟨qs2, k3, ?_, hrun3, hstep, ?_, hrep, hok3⟩
  · rw [ProcessFreeResources, K.bind_ok hrun1, K.bind_ok (setPcb_run p _ _)]
    change (insertPcbLast .freepcbs p _ >>= fun _ => _)
      ((k.withFlags p PROCESS_STATUS_FREE).relink qs1) = _
    rw [K.bind_ok hrun2, K.bind_ok hrun3, ProcessSetStatus_run, withStatus_free hfree]
  · obtain ⟨_, _, _, rfl, _⟩ := hstep
    rfl

/-! ## The scheduler -/

theorem reapZombies.nil (h : Rep k.qs Q) (hz : Q .zombieQueue = []) (fuel : Nat) :
    reapZombies (fuel + 1) k = .ok ((), k) := by
  rw [reapZombies, K.bind_ok (queueEmpty_run h _), hz]
  rfl

theorem reapZombies.single {live : Pid → Prop} (h : Rep k.qs Q) (hw : WaitsOnce Q)
    (hz : Q .zombieQueue = [p]) (hok : PagesOk k live) (hl : live p) (fuel : Nat) :
    ∃ qs' k', reapZombies (fuel + 2) k = .ok ((), k') ∧
      freeMemory p ((k.withFlags p PROCESS_STATUS_FREE).relink qs') = .ok ((), k') ∧
      MemStep p ((k.withFlags p PROCESS_STATUS_FREE).relink qs') k' ∧ k'.qs = qs' ∧
      Rep qs' (update (update Q .zombieQueue []) .freepcbs (Q .freepcbs ++ [p])) ∧
      PagesOk k' live := by
  have hpz : p ∈ Q .zombieQueue := by simp [hz]
  obtain ⟨qs1, hrun1, hrep1⟩ := removePcbLink.spec h rfl hpz
    "FATAL ERROR: could not remove zombie process from zombieQueue in ProcessSchedule!"
  obtain ⟨qs2, k2, hrun2, hfree, hstep, hqs, hrep2, hok2⟩ := ProcessFreeResources.spec
    (k := k.relink qs1) hrep1 (hw.updateProc rfl _) (h.offProc_erase rfl hpz)
    (hok.congr rfl rfl (fun _ => ⟨rfl, rfl, rfl⟩) fun _ => id) hl
  have hrep2' : Rep qs2 (update (update Q .zombieQueue []) .freepcbs (Q .freepcbs ++ [p])) := by
    simpa [hz] using hrep2
  refine ⟨qs2, k2, ?_, ?_, ?_, hqs, hrep2', hok2⟩
  · rw [reapZombies, K.bind_ok (queueEmpty_run h _), hz]
    simp only [List.isEmpty_cons, Bool.false_eq_true, if_false]
    rw [K.bind_ok (firstObject_run h hz), K.bind_ok hrun1, K.bind_ok hrun2]
    exact reapZombies.nil (Q := update (update Q .zombieQueue []) .freepcbs (Q .freepcbs ++ [p]))
      (hqs ▸ hrep2') (by simp) fuel
  · simpa using hfree
  · simpa using hstep

/-- What the scheduler writes before it ends the simulation. -/
def lastLines : List String := [
  "FATAL ERROR: no runnable processes, but there are sleeping processes waiting!",
  "No runnable processes - exiting!"]

/-- Without a runnable process the simulation ends. -/
theorem ProcessSchedule.last (h : Rep k.qs Q) (hr : Q .runQueue = []) (suspendFlag : Bool) :
    ∃ line ∈ lastLines, ProcessSchedule suspendFlag k = .error (.exitsim line) := by
  rw [ProcessSchedule, K.bind_ok (queueEmpty_run h _), hr]
  simp only [List.isEmpty_nil, if_true]
  rw [K.bind_ok (queueEmpty_run h _)]
  by_cases hw : (Q .waitQueue).isEmpty
  · refine ⟨"No runnable processes - exiting!", by simp [lastLines], ?_⟩
    simp [hw, K.bind_run, exitsim, K.halt_run]
  · refine ⟨"FATAL ERROR: no runnable processes, but there are sleeping processes waiting!",
      by simp [lastLines], ?_⟩
    simp [hw, K.bind_run, exitsim, K.halt_run]

theorem ProcessSchedule.nil (h : Rep k.qs Q) (hr : Q .runQueue = []) (suspendFlag : Bool) :
    ∃ line, ProcessSchedule suspendFlag k = .error (.exitsim line) := by
  obtain ⟨line, _, hrun⟩ := ProcessSchedule.last h hr suspendFlag
  exact ⟨line, hrun⟩

/-- After a suspension the front of the queue runs. -/
theorem ProcessSchedule.suspended (h : Rep k.qs Q) {ps : List Pid} (hr : Q .runQueue = p :: ps)
    (hz : Q .zombieQueue = []) :
    ProcessSchedule true k = .ok ((), k.withCurrent (some p)) := by
  rw [ProcessSchedule, K.bind_ok (queueEmpty_run h _), hr]
  simp only [List.isEmpty_cons, Bool.false_eq_true, if_false, Bool.not_true]
  rw [K.bind_ok (firstObject_run h hr), K.bind_ok (K.write_run _ k)]
  exact reapZombies.nil (k := k.withCurrent (some p)) h hz _

/-- Otherwise the front of the queue moves to the end first. -/
theorem ProcessSchedule.rotates (h : Rep k.qs Q) {ps : List Pid} (hr : Q .runQueue = p :: ps) :
    ∃ qs', ProcessSchedule false k =
        reapZombies (QUEUE_MAX_LINKS + 1) ((k.relink qs').withCurrent (ps ++ [p]).head?) ∧
      Rep qs' (update Q .runQueue (ps ++ [p])) := by
  obtain ⟨s', hrun, hrep⟩ := h.rotate hr
  obtain ⟨c, cs, hc⟩ := List.exists_cons_of_ne_nil (show ps ++ [p] ≠ [] by simp)
  refine ⟨_, ?_, hrep⟩
  rw [ProcessSchedule, K.bind_ok (queueEmpty_run h _), hr]
  simp only [List.isEmpty_cons, Bool.false_eq_true, if_false, Bool.not_false, if_true]
  have hfirst := firstObject_run (k := k.relink ⟨s', k.qs.link⟩) hrep
    (q := .runQueue) (show update Q .runQueue (ps ++ [p]) .runQueue = c :: cs by simp [hc])
  have hqueue : K.queue (fun s => AQueueMoveAfter (.client .runQueue)
      (AQueueLast (.client .runQueue) s) (AQueueFirst (.client .runQueue) s) s) k =
      .ok (QUEUE_SUCCESS, k.relink ⟨s', k.qs.link⟩) := by
    simp [K.queue, hrun, Kernel.relink]
  rw [K.bind_ok hqueue, K.bind_ok hfirst, K.bind_ok (K.write_run _ _), hc]
  rfl

/-! ## The creation of a process -/

/-- Where no PCB is free, the simulation ends. -/
theorem ProcessFork.nil (h : Rep k.qs Q) (hf : Q .freepcbs = []) (isUser loads : Bool) :
    ProcessFork isUser loads k = .error (.exitsim "FATAL error: no free processes!") := by
  rw [ProcessFork, DisableIntrs, K.bind_ok (SetIntrs_run 15 k),
    K.bind_ok (queueEmpty_run (k := k.withIntrs 15) h _), hf]
  rfl

/-- The kernel when `ProcessFork` comes to the memory of the new process. -/
def Kernel.forking (k : Kernel) (p : Pid) (qs : Queues) : Kernel :=
  (k.withStatus p PROCESS_STATUS_RUNNABLE).withQueues qs

/-- The kernel once the type of the new process is set. -/
def Kernel.typed (k : Kernel) (p : Pid) (isUser : Bool) : Kernel :=
  k.withFlags p ((k.pcbs p).flags ||| if isUser then PROCESS_TYPE_USER else PROCESS_TYPE_SYSTEM)

/-- The first process becomes the current one. -/
def Kernel.withFirst (k : Kernel) (p : Pid) : Kernel :=
  { k with currentPCB := k.currentPCB.or (some p) }

/-- A fork comes to its memory, and goes on if there are pages for it. -/
theorem ProcessFork.spec {live : Pid → Prop} (h : Rep k.qs Q) (hw : WaitsOnce Q) {ps : List Pid}
    (hf : Q .freepcbs = p :: ps) (hok : PagesOk k live) (isUser loads : Bool) :
    ∃ qs1, Rep qs1 (update Q .freepcbs ps) ∧
      (∀ e, forkMemory p (k.forking p qs1) = .error e → ProcessFork isUser loads k = .error e) ∧
      ∀ k2, forkMemory p (k.forking p qs1) = .ok ((), k2) →
        if isUser && !loads then
          ∃ qs' k', ProcessFork isUser loads k = .ok (-1, k') ∧
            freeMemory p ((k2.withFlags p PROCESS_STATUS_FREE).relink qs') = .ok ((), k') ∧
            MemStep p ((k2.withFlags p PROCESS_STATUS_FREE).relink qs') k' ∧ k'.qs = qs' ∧
            Rep qs' (update Q .freepcbs (ps ++ [p])) ∧ PagesOk k' fun r => r = p ∨ live r
        else
          ∃ qs', ProcessFork isUser loads k =
              .ok ((p : Nat), ((k2.typed p isUser).withQueues qs').withFirst p) ∧
            Rep qs' (update (update Q .freepcbs ps) .runQueue (Q .runQueue ++ [p])) := by
  have hpf : p ∈ Q .freepcbs := by simp [hf]
  obtain ⟨qs1, hrun1, hrep1⟩ := removePcbLink.spec (k := k.withIntrs 15) h rfl hpf
    "FATAL ERROR: could not remove link from freepcbsQueue in ProcessFork!"
  have hoff := h.offProc_erase rfl hpf
  rw [hf, List.erase_cons_head] at hrep1 hoff
  have hwait := hw.updateProc (q := .freepcbs) rfl ps
  rw [relink_masked] at hrun1
  refine ⟨qs1, hrep1, ?_⟩
  rw [ProcessFork, DisableIntrs, K.bind_ok (SetIntrs_run 15 k),
    K.bind_ok (queueEmpty_run (k := k.withIntrs 15) h _), hf]
  simp only [List.isEmpty_cons, Bool.false_eq_true, if_false]
  rw [K.bind_ok (firstObject_run (k := k.withIntrs 15) h hf), K.bind_ok hrun1,
    K.bind_ok (ProcessSetStatus_run p _ _), RestoreIntrs, K.bind_ok (j := k.forking p qs1) rfl]
  refine ⟨fun e he => K.bind_error he, fun k2 hmem => ?_⟩
  rw [K.bind_ok hmem]
  have hok1 : PagesOk (k.forking p qs1) live := by
    refine hok.congr rfl rfl ?_ fun _ => id
    intro r
    by_cases hr : r = p
    · subst hr; simp [Kernel.forking, PCB.withStatus]
    · simp [Kernel.forking, hr]
  obtain ⟨hstep, hok2⟩ := forkMemory.ok hok1 hmem
  obtain ⟨m, s, b, hk2, _⟩ := hstep
  have hrep2 : Rep k2.qs (update Q .freepcbs ps) := by rw [hk2]; exact hrep1
  by_cases hfail : (isUser && !loads) = true
  · rw [if_pos hfail, if_pos hfail]
    obtain ⟨qs2, k3, hrun3, hfree3, hstep3, hqs3, hrep3, hok3⟩ :=
      ProcessFreeResources.spec hrep2 hwait hoff hok2 (.inl rfl)
    refine ⟨qs2, k3, ?_, hfree3, hstep3, hqs3, by simpa using hrep3, hok3⟩
    rw [K.bind_ok hrun3]
    rfl
  · rw [if_neg hfail, if_neg hfail]
    obtain ⟨qs2, hrun3, hhand⟩ := allocPcbLink.spec (k := (k2.typed p isUser).withIntrs 15)
      hrep2 hwait hoff "FATAL ERROR: could not get link for forked PCB in ProcessFork!"
    rw [relink_masked] at hrun3
    obtain ⟨qs3, hrun4, hrep4⟩ := insertPcbLast.spec
      (k := ((k2.typed p isUser).withQueues qs2).withIntrs 15) hhand .runQueue
      "FATAL ERROR: could not insert link into runQueue in ProcessFork!"
    rw [relink_masked] at hrun4
    refine ⟨qs3, ?_, by simpa using hrep4⟩
    rw [K.bind_ok (j := k2.typed p isUser) rfl,
      K.bind_ok (SetIntrs_run 15 (k2.typed p isUser)), K.bind_ok hrun3, K.bind_ok hrun4,
      RestoreIntrs, K.bind_ok (j := (k2.typed p isUser).withQueues qs3) rfl,
      K.bind_ok (K.read_run _)]
    by_cases hc : k2.currentPCB = none
    · rw [if_pos (show ((k2.typed p isUser).withQueues qs3).currentPCB = none from hc)]
      simp [K.bind_run, K.write_run, K.pure_run, Kernel.withFirst, Kernel.typed, hc]
    · rw [if_neg (show ¬ ((k2.typed p isUser).withQueues qs3).currentPCB = none from hc)]
      obtain ⟨c, hc⟩ := Option.ne_none_iff_exists'.mp hc
      simp [K.pure_run, Kernel.withFirst, Kernel.typed, hc, Kernel.withQueues]

end dlxos
