-- The process table. At each boundary of the kernel, each process is on one
-- process queue, and its status and its link name that queue. A process has
-- the status of a sleeper just when it waits on an object of `synch.c`.
import DlxOs.Exec

namespace dlxos

open Function runs

variable {m : Machine} {p : Pid} {q : KQueue}

/-- The link `pcb->l` of the process holds it on queue `q`. -/
structure Linked (k : Kernel) (p : Pid) (q : KQueue) (l : LinkId) : Prop where
  link : k.qs.link p = some l
  held : l ∈ k.qs.store.links (.client q)
  object : k.qs.store.object l = some p
  queue : k.qs.store.queue l = some (.client q)

/-- The process is on queue `q` of `process.c`, once, and on no other one. -/
structure AtHome (m : Machine) (p : Pid) (q : KQueue) : Prop where
  isProc : q.isProc = true
  once : (m.queue q).count p = 1
  only : ∀ r, r.isProc = true → r ≠ q → p ∉ m.queue r
  status : (m.kernel.pcbs p).flags &&& PROCESS_STATUS_MASK = q.status
  linked : ∃ l, Linked m.kernel p q l

structure TableOk (m : Machine) : Prop where
  home : ∀ p, ∃ q, AtHome m p q
  zombies : m.queue .zombieQueue = []
  /-- The current process is the object of the first link of `runQueue`. -/
  current : m.kernel.currentPCB =
    (AQueueFirst (.client .runQueue) m.kernel.qs.store).bind m.kernel.qs.store.object
  exists_current : (∃ p, p ∉ m.queue .freepcbs) → m.kernel.currentPCB ≠ none

theorem Rep.linked {k : Kernel} {Q : KQueue → List Pid} (h : Rep k.qs Q) (hq : q.isProc = true)
    (hp : p ∈ Q q) : ∃ l, Linked k p q l := by
  obtain ⟨xs, h⟩ := h
  obtain ⟨l, hl, ho, hlink⟩ := h.link_eq hq hp
  exact ⟨l, hlink, by rw [h.lists.links_eq]; exact hl, ho, h.lists.queue _ l hl⟩

/-- The first object of a queue. -/
theorem Rep.first_object {k : Kernel} {Q : KQueue → List Pid} (h : Rep k.qs Q) (q : KQueue) :
    (AQueueFirst (.client q) k.qs.store).bind k.qs.store.object = (Q q).head? := by
  obtain ⟨xs, h⟩ := h
  rcases hq : Q q with _ | ⟨p, ps⟩
  · have hx : xs (.client q) = [] := by
      have := h.objects q
      simpa [hq] using this
    simp [AQueueFirst, h.lists.first, hx]
  · obtain ⟨l, ls, _, ho, _, hfirst⟩ := h.first_eq hq
    simp [hfirst, ho]

theorem Good.atHome (h : Good m) (p : Pid) : ∃ q, AtHome m p q := by
  obtain ⟨home, waits, hsl⟩ := h.inv.sleepers
  have hpl := hsl.placed
  have hproc := hpl.isProc p
  have hmem : p ∈ m.queue (home p) := (hpl.mem_proc hproc p).mpr rfl
  refine ⟨home p, hproc, ?_, ?_, h.sim.status _ hproc p hmem, h.sim.rep.linked hproc hmem⟩
  · exact List.count_eq_one_of_mem (hpl.nodup _) hmem
  · intro r hr hne hp
    exact hne ((hpl.mem_proc hr p).mp hp).symm

theorem process_table_invariant (h : Reachable m) : TableOk m := by
  have hg := h.good
  obtain ⟨home, waits, hsl⟩ := hg.inv.sleepers
  refine ⟨hg.atHome, hsl.zombies, ?_, ?_⟩
  · rw [hg.sim.rep.first_object, hg.current]
    rfl
  · rintro ⟨p, hp⟩ hnone
    exact hp (h.alive (hg.current ▸ hnone) p)

/-- Two processes run, one sleeps, one has ended, and one was never loaded. -/
def mixedRun : List Event :=
  [.fork true true, .fork true true, .fork true true, .fork true false, .fork false true,
    .call (.semCreate 0), .call (.semWait 0), .contextSwitch, .exit]

theorem process_table_of_a_run : ∃ m, Reachable m ∧ m.queue .runQueue = [30, 27] ∧
    m.queue .waitQueue = [31] ∧ TableOk m := by
  obtain ⟨m, hm, hq⟩ := exists_reachable mixedRun
    (fun a => a.queue .runQueue = [30, 27] ∧ a.queue .waitQueue = [31]) (by decide +kernel)
  exact ⟨m, hm, hq.1, hq.2, process_table_invariant hm⟩

/-! ## Sleepers -/

/-- No sleeper is lost, none is there twice, and no assertion has failed. -/
structure SleepersOk (m : Machine) : Prop where
  waiting : ∀ p, (m.kernel.pcbs p).flags &&& PROCESS_STATUS_MASK = PROCESS_STATUS_WAITING ↔
    ∃ q, q.isProc = false ∧ m.system.created q = true ∧ p ∈ m.queue q
  once : ∀ p, (m.kernel.pcbs p).flags &&& PROCESS_STATUS_MASK = PROCESS_STATUS_WAITING →
    ∃ q, q.isProc = false ∧ (m.queue q).count p = 1 ∧
      ∀ r, r.isProc = false → r ≠ q → p ∉ m.queue r
  /-- A call can suspend no other process than this one. -/
  runnable : ∀ p, m.kernel.currentPCB = some p →
    (m.kernel.pcbs p).flags &&& PROCESS_STATUS_MASK = PROCESS_STATUS_RUNNABLE
  suspends : suspendAssertion ∉ m.kernel.console
  wakes : wakeupAssertion ∉ m.kernel.console

/-- Each status names one queue. -/
theorem status_waiting (hq : q.isProc = true) :
    q.status = PROCESS_STATUS_WAITING ↔ q = .waitQueue := by
  cases q with
  | freepcbs | runQueue | waitQueue | zombieQueue => decide
  | sem _ | lock _ | cond _ => simp at hq

theorem no_lost_and_no_duplicated_sleeper (h : Reachable m) : SleepersOk m := by
  have hg := h.good
  obtain ⟨home, waits, hsl⟩ := hg.inv.sleepers
  have hpl := hsl.placed
  have hstatus : ∀ p, (m.kernel.pcbs p).flags &&& PROCESS_STATUS_MASK = PROCESS_STATUS_WAITING ↔
      waits p ≠ none := by
    intro p
    have hp := hpl.isProc p
    rw [hg.sim.status _ hp p ((hpl.mem_proc hp p).mpr rfl), status_waiting hp, hsl.waiting]
  refine ⟨fun p => ?_, fun p hp => ?_, fun p hp => ?_, hg.sim.lines.1, hg.sim.lines.2⟩
  · rw [hstatus, Option.ne_none_iff_exists']
    constructor
    · rintro ⟨q, hw⟩
      have hq := hpl.isWait p q hw
      exact ⟨q, hq, hsl.created p q hw, (hpl.mem_wait hq p).mpr hw⟩
    · rintro ⟨q, hq, _, hp⟩
      exact ⟨q, (hpl.mem_wait hq p).mp hp⟩
  · obtain ⟨q, hw⟩ := Option.ne_none_iff_exists'.mp ((hstatus p).mp hp)
    have hq := hpl.isWait p q hw
    refine ⟨q, hq, List.count_eq_one_of_mem (hpl.nodup q) ((hpl.mem_wait hq p).mpr hw), ?_⟩
    intro r hr hne hpr
    have hwr := (hpl.mem_wait hr p).mp hpr
    exact hne (Option.some.inj (hwr.symm.trans hw))
  · rw [hg.current] at hp
    obtain ⟨ps, hq⟩ := current_cons hp
    exact hg.sim.status .runQueue rfl p (by rw [hq]; simp)

theorem sleepers_of_a_run : ∃ m, Reachable m ∧ m.queue (.sem 0) = [31] ∧ SleepersOk m := by
  obtain ⟨m, hm, hq⟩ := exists_reachable mixedRun (fun a => a.queue (.sem 0) = [31])
    (by decide +kernel)
  exact ⟨m, hm, hq, no_lost_and_no_duplicated_sleeper hm⟩

end dlxos
