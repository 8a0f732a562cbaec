-- The routines that change the memory: the creation and the end of a process,
-- and the calls for shared pages. They do in the kernel what they do in the
-- system, and what they do to the memory is kept apart.
import DlxOs.Calls

namespace dlxos

open Function

variable {k k' : Kernel} {a : System} {p : Pid} {ps : List Pid} {home : Pid → KQueue}
  {waits : Pid → Option KQueue}

/-- The memory may change below the processes. -/
theorem Sim.memStep (h : Sim k a) (hm : MemStep p k k')
    (hok : PagesOk k' fun p => p ∉ a.queue .freepcbs) : Sim k' a := by
  have hflags := hm.flags
  obtain ⟨m, s, b, rfl, _, _⟩ := hm
  exact ⟨h.rep, h.sems, h.locks, h.conds, fun q hq p' hp => hflags p' ▸ h.status q hq p' hp,
    h.lines, hok⟩

/-! ## The end of a process -/

theorem exitTrap.sim (h : Sim k a) (hsl : Sleepers a home waits) (hc : k.currentPCB = some p)
    (hq : a.queue .runQueue = p :: ps) :
    (ps = [] → ∃ line, exitTrap k = .error (.exitsim line)) ∧
    ∀ r rs, ps = r :: rs → ∃ k0 k', exitTrap k = .ok ((), k') ∧
      Sim k' ((a.move p .runQueue .freepcbs).move r .runQueue .runQueue) ∧
      k'.currentPCB = (rs ++ [r]).head? ∧ Frozen k k0 ∧ freeMemory p k0 = .ok ((), k') := by
  have hpl := hsl.placed
  have hp : p ∈ a.queue .runQueue := by simp [hq]
  have hhome := (hpl.mem_proc rfl p).mp hp
  have hfree : p ∉ a.queue .freepcbs := by
    rw [hpl.mem_proc rfl, hhome]
    decide
  obtain ⟨qs1, hrun1, hrep1⟩ := ProcessDestroy.spec h.rep hpl.waitsOnce hp hsl.zombies
  rw [hq, List.erase_cons_head] at hrep1
  have hw1 := (hpl.waitsOnce.updateProc (q := .runQueue) rfl ps).updateProc
    (q := .zombieQueue) rfl [p]
  rw [exitTrap, K.bind_ok (GetCurrentPid_run hc), K.bind_ok hrun1]
  constructor
  · rintro rfl
    exact ProcessSchedule.nil hrep1 (by simp) false
  · rintro r rs rfl
    obtain ⟨qs2, hrun2, hrep2⟩ := ProcessSchedule.rotates
      (k := (k.withStatus p PROCESS_STATUS_ZOMBIE).relink qs1) hrep1
      (show _ = r :: rs by simp)
    rw [hrun2]
    have hmaps : Frozen k (((k.withStatus p PROCESS_STATUS_ZOMBIE).relink qs1).relink qs2) :=
      ((Quiet.withStatus k p _).trans ((Quiet.relink _ qs1).trans (.relink _ qs2))).frozen
    obtain ⟨qs3, k', hrun3, hmem, hstep, hqs, hrep3, hok⟩ := reapZombies.single
      (k := (((k.withStatus p PROCESS_STATUS_ZOMBIE).relink qs1).relink qs2).withCurrent
        (rs ++ [r]).head?) hrep2 (hw1.updateProc rfl _) (p := p) (by simp)
      (h.pages.congr hmaps.mem hmaps.spages hmaps.maps fun _ => id) hfree 399
    refine ⟨_, k', hrun3, ?_, ?_, ?_, hmem⟩
    · have hnd := hpl.nodup .runQueue
      rw [hq, List.nodup_cons, List.mem_cons, not_or] at hnd
      have hr : update home p .freepcbs r = .runQueue := by
        rw [update_of_ne (Ne.symm hnd.1.1)]
        exact (hpl.mem_proc rfl r).mp (by simp [hq])
      have hpl' := (hpl.move hhome (r := .freepcbs) rfl).move (r := .runQueue) hr rfl
      rw [← hr, update_eq_self, hr] at hpl'
      have hflags := hstep.flags
      have hqueue : ((a.move p .runQueue .freepcbs).move r .runQueue .runQueue).queue .freepcbs =
          a.queue .freepcbs ++ [p] := by simp [moveLast]
      obtain ⟨m, s, b, rfl, _, _⟩ := hstep
      refine ⟨?_, h.sems, h.locks, h.conds, h.status_moved hpl hpl' ?_ ?_, h.lines, ?_⟩
      · convert hrep3 using 2
        funext q
        cases q <;> simp [moveLast, hq, hsl.zombies]
      · rw [hflags]
        simp [KQueue.status, PROCESS_STATUS_FREE, PROCESS_STATUS_MASK]
      · intro p' hne
        rw [hflags]
        simp [hne]
      · refine hok.congr rfl rfl (fun _ => ⟨rfl, rfl, rfl⟩) fun p' hp' => ?_
        rw [hqueue] at hp'
        exact fun hm => hp' (by simp [hm])
    · obtain ⟨m, s, b, rfl, _, _⟩ := hstep
      rfl
    · refine hmaps.trans ⟨rfl, rfl, fun p' => ?_⟩
      by_cases hne : p' = p
      · subst hne; simp
      · simp [hne]

/-! ## The creation of a process -/

/-- The type of a process is not a part of its status. -/
theorem status_type {flags w type : Word} (h : flags &&& PROCESS_STATUS_MASK = w)
    (ht : type &&& PROCESS_STATUS_MASK = 0#32) :
    (flags ||| type) &&& PROCESS_STATUS_MASK = w := by
  have : (flags ||| type) &&& PROCESS_STATUS_MASK =
      (flags &&& PROCESS_STATUS_MASK) ||| (type &&& PROCESS_STATUS_MASK) := by
    apply BitVec.eq_of_getLsbD_eq
    intro i _
    simp only [BitVec.getLsbD_and, BitVec.getLsbD_or, Bool.and_or_distrib_right]
  rw [this, h, ht, BitVec.or_zero]

theorem Frozen.forking (k : Kernel) (p : Pid) (qs : Queues) : Frozen k (k.forking p qs) := by
  refine ⟨rfl, rfl, fun r => ?_⟩
  by_cases hr : r = p
  · subst hr; simp [Kernel.forking, PCB.withStatus]
  · simp [Kernel.forking, hr]

theorem Frozen.withFlags (k : Kernel) (p : Pid) (flags : Word) :
    Frozen k (k.withFlags p flags) := by
  refine ⟨rfl, rfl, fun r => ?_⟩
  by_cases hr : r = p
  · subst hr; simp
  · simp [hr]

/-- A fork that gets its memory makes its process runnable. Where the loader
fails, the process is free again. -/
theorem ProcessFork.sim (h : Sim k a) (hpl : Placed a.queue home waits)
    (hq : a.queue .freepcbs = p :: ps) (isUser loads : Bool) :
    ∃ k0, Frozen k k0 ∧
      (∀ e, forkMemory p k0 = .error e → ProcessFork isUser loads k = .error e) ∧
      ∀ k1, forkMemory p k0 = .ok ((), k1) →
        if isUser && !loads then
          ∃ k2 k', ProcessFork isUser loads k = .ok (-1, k') ∧
            Sim k' (a.move p .freepcbs .freepcbs) ∧ k'.currentPCB = k.currentPCB ∧
            Frozen k1 k2 ∧ freeMemory p k2 = .ok ((), k')
        else
          ∃ k', ProcessFork isUser loads k = .ok ((p : Nat), k') ∧
            Sim k' (a.move p .freepcbs .runQueue) ∧
            k'.currentPCB = k.currentPCB.or (some p) ∧ Frozen k1 k' := by
  have hp : p ∈ a.queue .freepcbs := by simp [hq]
  have hhome := (hpl.mem_proc rfl p).mp hp
  obtain ⟨qs1, hrep1, herr, hok⟩ := ProcessFork.spec h.rep hpl.waitsOnce hq h.pages isUser loads
  have hpages : PagesOk (k.forking p qs1) fun p => p ∉ a.queue .freepcbs :=
    h.pages.congr rfl rfl (Frozen.forking k p qs1).maps fun _ => id
  refine ⟨_, .forking k p qs1, herr, fun k1 hmem => ?_⟩
  obtain ⟨hstep1, hpages1⟩ := forkMemory.ok hpages hmem
  have hflags1 : ∀ p', p' ≠ p → (k1.pcbs p').flags = (k.pcbs p').flags := by
    intro p' hne
    rw [hstep1.flags]
    simp [Kernel.forking, hne]
  have hst1 : (k1.pcbs p).flags &&& PROCESS_STATUS_MASK = PROCESS_STATUS_RUNNABLE := by
    rw [hstep1.flags]
    simpa [Kernel.forking, PCB.withStatus] using status_set _ PROCESS_STATUS_RUNNABLE rfl
  obtain ⟨m1, s1, b1, hk1, _, _⟩ := hstep1
  obtain ⟨h1, h2, h3, h4⟩ : k1.sems = k.sems ∧ k1.locks = k.locks ∧ k1.conds = k.conds ∧
      k1.console = k.console := by rw [hk1]; exact ⟨rfl, rfl, rfl, rfl⟩
  have hok := hok k1 hmem
  by_cases hfail : (isUser && !loads) = true
  · rw [if_pos hfail] at hok ⊢
    obtain ⟨qs2, k', hrun, hfree, hstep, hqs, hrep, hpages'⟩ := hok
    have hflags := hstep.flags
    have hf2 : Frozen k1 ((k1.withFlags p PROCESS_STATUS_FREE).relink qs2) :=
      (Frozen.withFlags k1 p _).trans (Quiet.relink _ qs2).frozen
    obtain ⟨m, s, b, rfl, _, _⟩ := hstep
    refine ⟨_, _, hrun, ?_, by rw [hk1]; rfl, hf2, hfree⟩
    have hmove : (a.move p .freepcbs .freepcbs).queue = update a.queue .freepcbs (ps ++ [p]) := by
      simp [moveLast, hq]
    refine ⟨by rw [hmove]; exact hrep, h1.trans h.sems, h2.trans h.locks, h3.trans h.conds,
      h.status_moved hpl (hpl.move hhome rfl) ?_ ?_, h4 ▸ h.lines, ?_⟩
    · rw [hflags]
      simp [KQueue.status, PROCESS_STATUS_FREE, PROCESS_STATUS_MASK]
    · intro p' hne
      rw [hflags]
      simpa [hne] using hflags1 p' hne
    · refine hpages'.congr rfl rfl (fun _ => ⟨rfl, rfl, rfl⟩) fun p' hp' => ?_
      rw [hmove] at hp'
      exact .inr fun hm => hp' (by simpa [hq, or_comm] using hm)
  · rw [if_neg hfail] at hok ⊢
    obtain ⟨qs2, hrun, hrep⟩ := hok
    have hf2 : Frozen k1 (((k1.typed p isUser).withQueues qs2).withFirst p) :=
      (Frozen.withFlags k1 p _).trans ⟨rfl, rfl, fun _ => ⟨rfl, rfl, rfl⟩⟩
    refine ⟨_, hrun, ?_, ?_, hf2⟩
    · have hmove : (a.move p .freepcbs .runQueue).queue =
          update (update a.queue .freepcbs ps) .runQueue (a.queue .runQueue ++ [p]) := by
        simp [moveLast, hq]
      refine ⟨by rw [hmove]; exact hrep, h1.trans h.sems, h2.trans h.locks, h3.trans h.conds,
        h.status_moved hpl (hpl.move hhome rfl) ?_ ?_, h4 ▸ h.lines, ?_⟩
      · have htype : (if isUser then PROCESS_TYPE_USER else PROCESS_TYPE_SYSTEM) &&&
            PROCESS_STATUS_MASK = 0#32 := by cases isUser <;> decide
        simpa [Kernel.withFirst, Kernel.typed, KQueue.status] using status_type hst1 htype
      · intro p' hne
        simpa [Kernel.withFirst, Kernel.typed, hne] using hflags1 p' hne
      · refine hpages1.congr rfl rfl hf2.maps fun p' hp' => ?_
        rw [hmove] at hp'
        by_cases hpp : p' = p
        · exact .inl hpp
        · exact .inr fun hm => hp' (by simpa [hq, hpp] using hm)
    · rw [hk1]
      rfl

/-! ## Shared pages -/

theorem MemoryCreateSharedPage.sim (h : Sim k a) {v : Int}
    (hrun : MemoryCreateSharedPage p k = .ok (v, k')) :
    Sim k' a ∧ k'.currentPCB = k.currentPCB := by
  obtain ⟨hstep, hok⟩ := MemoryCreateSharedPage.ok h.pages hrun
  refine ⟨h.memStep hstep hok, ?_⟩
  obtain ⟨m, s, b, rfl, _, _⟩ := hstep
  rfl

theorem mmap.sim (h : Sim k a) (p : Pid) (handle : Nat) :
    ∃ v k', mmap p handle k = .ok (v, k') ∧ Sim k' a ∧ k'.currentPCB = k.currentPCB := by
  obtain ⟨v, k', hrun, hstep, hok⟩ := mmap.ok (p := p) h.pages handle
  refine ⟨v, k', hrun, h.memStep hstep hok, ?_⟩
  obtain ⟨m, s, b, rfl, _, _⟩ := hstep
  rfl

/-- Where no page is shared, nothing can be mapped. -/
theorem mmap.unshared (h : ∀ i, (k.spages i).page = 0) (p : Pid) (handle : Nat) :
    mmap p handle k = .ok (0, k) := by
  unfold mmap
  by_cases h0 : handle = 0
  · simp [h0, K.pure_run]
  · have hnone : findShared { k with intrs := 15 } handle = none := by
      rw [findShared, List.find?_eq_none]
      intro i _
      simpa [h i] using Ne.symm h0
    simp only [if_neg h0, K.bind_run, K.read_run, DisableIntrs, RestoreIntrs, SetIntrs, hnone]
    rfl

end dlxos
