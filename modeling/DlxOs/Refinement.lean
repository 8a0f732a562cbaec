-- The machine refines the system. `Good` holds when the machine starts, each
-- step keeps it, and each step of the machine is a step of the system that
-- the machine shows. Where the system has no step, the simulation ends.
import DlxOs.ForkExit

namespace dlxos

open Function

/-- The kernel agrees with the system that the machine shows, and that system
is in order. -/
structure Good (m : Machine) : Prop where
  sim : Sim m.kernel m.system
  inv : Inv m.system
  current : m.kernel.currentPCB = m.system.current

variable {k k' : Kernel} {m m' : Machine} {a b : System} {p : Pid} {ps : List Pid}
  {Q : KQueue → List Pid} {e : Entry} {r : Return}

/-! ## The start -/

/-- Every process is free, and nothing was created. -/
def System.start : System where
  queue q := if q = .freepcbs then (List.finRange PROCESS_MAX_PROCS).reverse else []
  sems _ := ⟨0, false⟩
  locks _ := ⟨0, false⟩
  conds _ := ⟨0, false⟩
  stopped _ := none

theorem Inv.start : Inv System.start := by
  refine ⟨⟨fun _ => .freepcbs, fun _ => none, ⟨?_, ?_, by simp, ?_⟩, by simp, by simp, by simp,
    by simp, fun _ _ => rfl, ?_⟩, fun s hs => ?_, fun l hl => ?_⟩
  · intro q
    by_cases hq : q = .freepcbs
    · simp [System.start, hq, List.nodup_finRange]
    · simp [System.start, hq]
  · exact fun _ => rfl
  · intro q p
    by_cases hq : q = .freepcbs
    · simp [System.start, hq]
    · simp [System.start, hq, Ne.symm hq]
  · intro p c stop hs
    cases hs
  · cases hs
  · cases hl

theorem initPcb.spec (h : Rep k.qs Q) (hw : WaitsOnce Q) (hp : OffProc Q p) :
    ∃ qs', initPcb p k = .ok ((), (k.withFlags p PROCESS_STATUS_FREE).relink qs') ∧
      Rep qs' (update Q .freepcbs (p :: Q .freepcbs)) := by
  obtain ⟨qs1, hrun1, hhand⟩ := allocPcbLink.spec h hw hp
    "FATAL ERROR: could not allocate link in ProcessModuleInit!"
  obtain ⟨qs2, hrun2, hrep⟩ := insertPcbFirst.spec
    (k := (k.withFlags p PROCESS_STATUS_FREE).relink qs1) hhand .freepcbs
    "FATAL ERROR: could not insert PCB link into queue in ProcessModuleInit!"
  rw [relink_relink] at hrun2
  refine ⟨qs2, ?_, hrep⟩
  rw [initPcb, K.bind_ok hrun1, K.bind_ok (setPcb_run p _ _)]
  exact hrun2

/-- The processes come to `freepcbs` one after another, each at the front. -/
theorem initPcbs.spec (ps : List Pid) : ∀ {k Q}, Rep k.qs Q → WaitsOnce Q → ps.Nodup →
    (∀ p ∈ ps, OffProc Q p) →
    ∃ qs pcbs exposed, initPcbs ps k = .ok ((), { k with qs, pcbs, exposed }) ∧
      Rep qs (update Q .freepcbs (ps.reverse ++ Q .freepcbs)) ∧
      (∀ p ∈ ps, (pcbs p).flags = PROCESS_STATUS_FREE) ∧
      (∀ p, p ∉ ps → (pcbs p).flags = (k.pcbs p).flags) ∧
      ∀ p, (pcbs p).npages = (k.pcbs p).npages := by
  induction ps with
  | nil =>
    intro k Q h _ _ _
    exact ⟨k.qs, k.pcbs, k.exposed, rfl, by simpa using h, by simp, by simp, fun _ => rfl⟩
  | cons p ps ih =>
    intro k Q h hw hd hoff
    rw [List.nodup_cons] at hd
    obtain ⟨qs1, hrun1, hrep1⟩ := initPcb.spec h hw (hoff p (by simp))
    have hoff1 : ∀ r ∈ ps, OffProc (update Q .freepcbs (p :: Q .freepcbs)) r := by
      intro r hr q hq hrq
      have hne : r ≠ p := fun he => hd.1 (he ▸ hr)
      by_cases hqf : q = .freepcbs
      · subst hqf
        rw [update_self, List.mem_cons] at hrq
        exact hrq.elim hne (hoff r (by simp [hr]) .freepcbs rfl)
      · rw [update_of_ne hqf] at hrq
        exact hoff r (by simp [hr]) q hq hrq
    obtain ⟨qs2, pcbs, exposed, hrun2, hrep2, hin, hout, hnp⟩ := ih
      (k := (k.withFlags p PROCESS_STATUS_FREE).relink qs1) hrep1 (hw.updateProc rfl _) hd.2 hoff1
    refine ⟨qs2, pcbs, exposed, ?_, by simpa using hrep2, ?_, ?_, ?_⟩
    · rw [initPcbs, K.bind_ok hrun1, hrun2]
      rfl
    · intro r hr
      rcases List.mem_cons.mp hr with rfl | hr
      · rw [hout r hd.1]
        simp
      · exact hin r hr
    · intro r hr
      rw [List.mem_cons, not_or] at hr
      rw [hout r hr.2]
      simp [hr.1]
    · intro r
      rw [hnp r]
      by_cases hr : r = p
      · subst hr; simp
      · simp [hr]

/-- Empty queues stay as they are when they are initialized. -/
theorem queueInit_run {k : Kernel} (h : Rep k.qs Q) {q : KQueue} (hq : Q q = []) :
    K.queue (AQueueInit (.client q)) k = .ok (QUEUE_SUCCESS, k.relink k.qs) := by
  simp [K.queue, h.init hq, Kernel.relink]

theorem ProcessModuleInit.spec (h : Rep k.qs fun _ => []) :
    ∃ qs pcbs exposed,
      ProcessModuleInit k = .ok ((), { k with qs, pcbs, exposed, currentPCB := none }) ∧
      Rep qs System.start.queue ∧ (∀ p, (pcbs p).flags = PROCESS_STATUS_FREE) ∧
      ∀ p, (pcbs p).npages = (k.pcbs p).npages := by
  obtain ⟨qs, pcbs, exposed, hrun, hrep, hin, _, hnp⟩ := initPcbs.spec
    (List.finRange PROCESS_MAX_PROCS) (k := k.relink k.qs) h ⟨by simp, by simp⟩
    (List.nodup_finRange _) (fun _ _ q _ => by simp)
  refine ⟨qs, pcbs, exposed, ?_, ?_, fun p => hin p (by simp), hnp⟩
  · have hinit : ∀ q, K.queue (AQueueInit (.client q)) (k.relink k.qs) =
        .ok (QUEUE_SUCCESS, k.relink k.qs) := by
      intro q
      rw [queueInit_run (k := k.relink k.qs) h rfl]
      simp
    rw [ProcessModuleInit, K.bind_ok (queueInit_run h rfl), K.bind_ok (hinit .runQueue),
      K.bind_ok (hinit .waitQueue), K.bind_ok (hinit .zombieQueue), K.bind_ok hrun]
    rfl
  · convert hrep using 2
    funext q
    by_cases hq : q = .freepcbs
    · subst hq; simp [System.start]
    · simp [System.start, hq]

/-- Static memory holds no queue. -/
theorem zeroKernel_lists : Lists zeroKernel.qs.store fun _ => [] :=
  ⟨fun _ => rfl, fun _ => rfl, fun _ => rfl, fun _ => trivial, by simp, by simp⟩

theorem startModules.spec (b : Boot) :
    ∃ k, startModules b zeroKernel = .ok ((), k) ∧ Sim k System.start ∧ k.currentPCB = none ∧
      k.mem = MemoryModuleInit b.memsize b.lastosaddress zeroKernel.mem ∧
      ∀ i, (k.spages i).page = 0 := by
  obtain ⟨s, hrun1, hlists⟩ := AQueueModuleInit.spec zeroKernel_lists
  have hrep : Rep ⟨s, zeroKernel.qs.link⟩ fun _ => [] := by
    refine ⟨_, hlists, by simp, fun l => .inl ⟨.freeLinks, by simp⟩, by simp, by simp⟩
  let k1 : Kernel := { zeroKernel.relink ⟨s, zeroKernel.qs.link⟩ with
    mem := MemoryModuleInit b.memsize b.lastosaddress zeroKernel.mem }
  have hmem : K.write (fun k => { k with
      mem := MemoryModuleInit b.memsize b.lastosaddress k.mem })
      (zeroKernel.relink ⟨s, zeroKernel.qs.link⟩) = .ok ((), k1) := rfl
  obtain ⟨qs, pcbs, exposed, hrun2, hrep2, hflags, hnp⟩ := ProcessModuleInit.spec (k := k1) hrep
  have hqueue : K.queue AQueueModuleInit zeroKernel =
      .ok (QUEUE_SUCCESS, zeroKernel.relink ⟨s, zeroKernel.qs.link⟩) := by
    simp [K.queue, hrun1, Kernel.relink]
  obtain ⟨hbits, _, _, _⟩ := MemoryModuleInit.spec (m := zeroKernel.mem) b.memsize
    b.lastosaddress fun _ => rfl
  obtain ⟨k, hrun, hqs, hpcbs, hcur, hm, hsp, hsync⟩ : ∃ k,
      startModules b zeroKernel = .ok ((), k) ∧ k.qs = qs ∧ k.pcbs = pcbs ∧ k.currentPCB = none ∧
      k.mem = MemoryModuleInit b.memsize b.lastosaddress zeroKernel.mem ∧
      (∀ i, (k.spages i).page = 0) ∧ k.sems = System.start.sems ∧ k.locks = System.start.locks ∧
      k.conds = System.start.conds ∧ k.console = [] := by
    refine ⟨{ k1 with qs, pcbs, exposed, currentPCB := none, spages := fun _ => ⟨0, 0⟩ }, ?_,
      rfl, rfl, rfl, rfl, fun _ => rfl, rfl, rfl, rfl, rfl⟩
    rw [startModules, K.bind_ok hqueue, K.bind_ok hmem, K.bind_ok hrun2]
    rfl
  obtain ⟨h1, h2, h3, h4⟩ := hsync
  refine ⟨k, hrun, ⟨hqs ▸ hrep2, h1, h2, h3, ?_, by simp [h4], ?_, ?_, ?_, ?_, ?_⟩, hcur, hm, hsp⟩
  · intro q _ p hp
    obtain rfl : q = .freepcbs := by
      by_contra hq
      simp [System.start, hq] at hp
    rw [hpcbs, hflags p]
    rfl
  · intro x hx
    rw [hm, hbits x, decide_eq_true_eq] at hx
    have h1 := b.os_ge
    have h2 := b.memsize_lt
    have h3 : 1 ≤ pagestart b.lastosaddress := by
      simp only [pagestart, MEMORY_PAGE_SIZE]
      omega
    have h4 : maxpage b.memsize ≤ MEMORY_MAX_PAGES := by
      simp only [maxpage, MEMORY_PAGE_SIZE, MEMORY_MAX_PAGES]
      omega
    omega
  · intro i
    rw [hsp i]
    decide
  · intro p
    rw [hpcbs, hnp p]
    exact Nat.zero_le _
  · intro p i hi
    rw [hpcbs, hnp p] at hi
    cases hi
  · intro p hp
    exact absurd (by simp [System.start]) hp

/-! ## The system that a kernel shows -/

theorem Sim.setStopped (h : Sim k a) (p : Pid) (x : Option (Call × Stop)) :
    Sim k (a.setStopped p x) :=
  ⟨h.rep, h.sems, h.locks, h.conds, h.status, h.lines, h.pages⟩

theorem Sim.system_eq (h : Sim k a) (frames : Pid → Option Frame)
    (hs : (fun p => (frames p).map fun f => (f.call, f.place.stop)) = a.stopped) :
    (Machine.mk k frames).system = a := by
  obtain ⟨queue, sems, locks, conds, stopped⟩ := a
  simp only [Machine.system, System.mk.injEq]
  exact ⟨funext h.rep.objects_eq, h.sems, h.locks, h.conds, hs⟩

/-- The result of a call is stored in the frame of its process. -/
theorem Sim.setResult (h : Sim k a) (p : Pid) (v : Int) :
    ∃ k', ProcessSetResult p v k = .ok ((), k') ∧ Sim k' a ∧ Quiet k k' := by
  have hpcb : ∀ r, (update k.pcbs p { k.pcbs p with result := v } r).flags = (k.pcbs r).flags ∧
      (update k.pcbs p { k.pcbs p with result := v } r).npages = (k.pcbs r).npages ∧
      (update k.pcbs p { k.pcbs p with result := v } r).pagetable = (k.pcbs r).pagetable ∧
      (update k.pcbs p { k.pcbs p with result := v } r).sysStackArea = (k.pcbs r).sysStackArea := by
    intro r
    by_cases hr : r = p
    · subst hr; simp
    · simp [hr]
  refine ⟨_, rfl, ⟨h.rep, h.sems, h.locks, h.conds, ?_, h.lines, ?_⟩, ?_⟩
  · intro q hq r hr
    simpa [hpcb r] using h.status q hq r hr
  · exact h.pages.congr rfl rfl (fun r => (hpcb r).2) fun _ => id
  · exact ⟨⟨rfl, rfl, fun r => (hpcb r).2⟩, rfl, rfl, fun _ => rfl⟩

theorem boot_good (b : Boot) :
    ∃ m, boot b = .ok m ∧ Good m ∧ m.system = System.start ∧
      m.kernel.mem = MemoryModuleInit b.memsize b.lastosaddress zeroKernel.mem ∧
      ∀ i, (m.kernel.spages i).page = 0 := by
  obtain ⟨k, hrun, hsim, hcur, hm, hsp⟩ := startModules.spec b
  have hsys : (Machine.mk k fun _ => none).system = System.start := hsim.system_eq _ rfl
  refine ⟨⟨k, fun _ => none⟩, by simp [boot, hrun, bind, Except.bind, pure, Except.pure],
    ⟨hsys ▸ hsim, hsys ▸ Inv.start, ?_⟩, hsys, hm, hsp⟩
  rw [hsys, hcur]
  rfl

/-! ## One step -/

/-- What an entry of the kernel does to the memory. -/
def MemEffect (k k' : Kernel) (a : System) : Event → Prop
  | .exit => ∃ p k0, a.current = some p ∧ Frozen k k0 ∧ freeMemory p k0 = .ok ((), k')
  | .fork isUser loads => ∃ p k0 k1, (a.queue .freepcbs).head? = some p ∧ Frozen k k0 ∧
      forkMemory p k0 = .ok ((), k1) ∧
      if isUser && !loads then ∃ k2, Frozen k1 k2 ∧ freeMemory p k2 = .ok ((), k')
      else Frozen k1 k'
  | .call .shareCreatePage => True
  | .call (.shareMapPage _) => (∀ i, (k.spages i).page = 0) → Frozen k k'
  | _ => Frozen k k'

/-- The machine goes on as the system does. A call that does not return has
written nothing without protection, and interrupts stay disabled. -/
structure Follows (m : Machine) (e : Entry) (b : System) (r : Return) (m' : Machine) : Prop where
  run : m.step e = .ok (m', r)
  system : m'.system = b
  good : Good m'
  memory : MemEffect m.kernel m'.kernel m.system e.event
  masked : (∃ c, e.event = .call c) ∨ e.event = .resume → r = none →
    m'.kernel.intrs = 15 ∧ m'.kernel.exposed = m.kernel.exposed

/-- Where the system has no step, the simulation ends. -/
def Goes (m : Machine) (e : Entry) : Option (System × Return) → Prop
  | none => ∃ line, m.step e = .error (.exitsim line)
  | some (b, r) => ∃ m', Follows m e b r m'

theorem Good.ready (h : Good m) (e : Entry) : m.Ready e ↔ m.system.Ready e.event := by
  have hs : ∀ p, m.system.stopped p = none ↔ m.frames p = none := by simp [Machine.system]
  unfold Machine.Ready System.Ready
  rw [h.current]
  split <;> simp [*]

theorem Good.runs (h : Good m) (hp : m.system.current = some p) (level : Level) :
    Runs (m.kernel.withIntrs level) m.system p :=
  ⟨h.sim.withIntrs level, h.inv.sleepers, hp, h.current.trans hp⟩

/-- A machine that shows the next system is good again. -/
theorem Good.next {v : Int} (h : Good m) (frames : Pid → Option Frame) (hr : m.Ready e)
    (hs : m.system.step v e.event = some (b, r)) (hsim : Sim k' b)
    (hf : (fun p => (frames p).map fun f => (f.call, f.place.stop)) = b.stopped)
    (hc : k'.currentPCB = b.current) :
    (Machine.mk k' frames).system = b ∧ Good ⟨k', frames⟩ := by
  have hsys := hsim.system_eq frames hf
  refine ⟨hsys, hsys ▸ hsim, ?_, hsys ▸ hc⟩
  rw [hsys]
  exact h.inv.step ((h.ready e).mp hr) hs

/-- The end of a call. -/
theorem Goes.finish {v : Int} (h : Good m) (hr : m.Ready e) {c : Call}
    {x : Except Halt (Outcome × Kernel)} {o : Option (System × Result)}
    (hm : Meets (m.kernel.withIntrs e.level) x o)
    (hrun : m.step e = x >>= fun r => m.finish p c r.1 r.2)
    (hsys : m.system.step v e.event = o.map (System.finish p c))
    (hkeep : ∀ b res, o = some (b, res) → b.stopped = m.system.stopped)
    (hmem : ∀ k', Frozen m.kernel k' → MemEffect m.kernel k' m.system e.event) :
    Goes m e (o.map (System.finish p c)) := by
  rcases o with _ | ⟨b, res⟩
  · obtain ⟨line, hx⟩ := hm
    exact ⟨line, by rw [hrun, hx]; rfl⟩
  obtain ⟨out, k1, hx, ho, hsim, hc, hf, hs⟩ := hm
  have hf := (Frozen.withIntrs m.kernel e.level).trans hf
  have hstop : ∀ y : Option Frame,
      (fun r => (update m.frames p y r).map fun f => (f.call, f.place.stop)) =
        (b.setStopped p (y.map fun f => (f.call, f.place.stop))).stopped := by
    intro y
    funext r
    rw [System.setStopped_stopped, hkeep b res rfl]
    by_cases hrp : r = p
    · subst hrp; simp
    · simp [hrp, Machine.system]
  subst hx
  rcases out with n | place
  · obtain rfl : .returns n = res := ho
    obtain ⟨k2, hset, hsim2, hquiet⟩ := hsim.setResult p n
    obtain ⟨hsys', hgood⟩ := h.next _ hr hsys (hsim2.setStopped p none) (hstop none)
      (hquiet.current.trans hc)
    refine ⟨⟨k2, update m.frames p none⟩, ?_, hsys', hgood, hmem _ (hf.trans hquiet.frozen), ?_⟩
    · rw [hrun]
      simp only [bind, Except.bind, Machine.finish, hset]
      rfl
    · rintro _ ⟨⟩
  · obtain rfl : .sleeps place.stop = res := ho
    obtain ⟨hsys', hgood⟩ := h.next _ hr hsys (hsim.setStopped p (some (c, place.stop)))
      (hstop (some ⟨c, place, k1.intrs⟩)) hc
    exact ⟨⟨k1, update m.frames p (some ⟨c, place, k1.intrs⟩)⟩, hrun, hsys', hgood, hmem _ hf,
      fun _ _ => hs _ rfl⟩

theorem Machine.step_sync (h : Good m) (hr : m.Ready e) {c : Call} (he : e.event = .call c)
    (hc : c.isSync = true) (v : Int) : Goes m e (m.system.step v e.event) := by
  obtain ⟨p, hp, _⟩ : ∃ p, m.system.current = some p ∧ m.system.stopped p = none := by
    have := (h.ready e).mp hr
    rwa [he] at this
  have hruns := h.runs hp e.level
  obtain ⟨ps, hq⟩ := current_cons hp
  have hsys : m.system.step v e.event = (m.system.call p v c).map (System.finish p c) := by
    simp only [he, System.step, hq]
  rw [hsys]
  refine Goes.finish h hr (trap.meets hruns hc v) ?_ hsys ?_ ?_
  · simp only [Machine.step, he]
    change (GetCurrentPid (m.kernel.withIntrs e.level) >>= fun _ => _) = _
    rw [GetCurrentPid_run hruns.pcb]
    rfl
  · exact fun b res hb => (System.Keeps.calls (System.calls hb)).stopped
  · intro k' hf
    rw [he]
    cases c <;> first | exact hf | cases hc

theorem Machine.step_resume (h : Good m) (hr : m.Ready e) (he : e.event = .resume) (v : Int) :
    Goes m e (m.system.step v e.event) := by
  obtain ⟨p, hp, hstop⟩ : ∃ p, m.system.current = some p ∧ m.system.stopped p ≠ none := by
    have := (h.ready e).mp hr
    rwa [he] at this
  have hruns := h.runs hp e.level
  obtain ⟨ps, hq⟩ := current_cons hp
  rcases hf : m.frames p with _ | ⟨c, place, level⟩
  · simp [Machine.system, hf] at hstop
  have hst : m.system.stopped p = some (c, place.stop) := by simp [Machine.system, hf]
  have hsys : m.system.step v e.event =
      (m.system.afterSleep p place.stop).map (System.finish p c) := by
    simp only [he, System.step, hq, hst]
  rw [hsys]
  have hmeets : Meets (m.kernel.withIntrs e.level)
      (afterSleep place (m.kernel.withIntrs level)) (m.system.afterSleep p place.stop) := by
    have hmeets := afterSleep.meets (h.runs hp level) place
    refine Meets.after ?_ ?_ hmeets
    · exact ⟨rfl, rfl, fun _ => ⟨rfl, rfl, rfl⟩⟩
    · rfl
  refine Goes.finish h hr hmeets ?_ hsys ?_ ?_
  · simp only [Machine.step, he]
    change (GetCurrentPid (m.kernel.withIntrs e.level) >>= fun _ => _) = _
    rw [GetCurrentPid_run hruns.pcb]
    simp only [bind, Except.bind, hf]
    rfl
  · exact fun b res hb => (System.Keeps.resumes (System.resumes hb)).stopped
  · intro k' hf
    rw [he]
    exact hf

theorem Machine.step_rotate (h : Good m) (hr : m.Ready e)
    (he : e.event = .timer ∨ e.event = .contextSwitch) (v : Int) :
    Goes m e (m.system.step v e.event) := by
  obtain ⟨p, hp⟩ : ∃ p, m.system.current = some p := by
    have := (h.ready e).mp hr
    rcases he with he | he <;> rw [he] at this
    · exact Option.ne_none_iff_exists'.mp this
    · exact this.imp fun _ hp => hp.1
  obtain ⟨ps, hq⟩ := current_cons hp
  obtain ⟨home, waits, hsl⟩ := h.inv.sleepers
  obtain ⟨k', hrun, hsim, hc, hf⟩ := ProcessSchedule.sim (h.sim.withIntrs e.level) hsl.placed hq
    hsl.zombies
  have hf := (Frozen.withIntrs m.kernel e.level).trans hf
  have hsys : m.system.step v e.event = some (m.system.move p .runQueue .runQueue, none) := by
    rcases he with he | he <;> simp only [he, System.step, hq]
  have hc' : k'.currentPCB = (m.system.move p .runQueue .runQueue).current := by
    rw [hc, System.current]
    simp [moveLast, hq]
  have hstep : m.step e = .ok ({ m with kernel := k' }, none) := by
    rcases he with he | he
    all_goals
      simp only [Machine.step, he]
      change (ProcessSchedule false (m.kernel.withIntrs e.level) >>= fun _ => _) = _
      rw [hrun]
      rfl
  obtain ⟨hsys', hgood⟩ := h.next m.frames hr hsys hsim rfl hc'
  rw [hsys]
  refine ⟨_, hstep, hsys', hgood, ?_, ?_⟩
  · rcases he with he | he <;> rw [he] <;> exact hf
  · rcases he with he | he <;> simp [he]

theorem Machine.step_exit (h : Good m) (hr : m.Ready e) (he : e.event = .exit) (v : Int) :
    Goes m e (m.system.step v e.event) := by
  obtain ⟨p, hp, _⟩ : ∃ p, m.system.current = some p ∧ m.system.stopped p = none := by
    have := (h.ready e).mp hr
    rwa [he] at this
  obtain ⟨ps, hq⟩ := current_cons hp
  obtain ⟨home, waits, hsl⟩ := h.inv.sleepers
  have hruns := h.runs hp e.level
  obtain ⟨hlast, hnext⟩ := exitTrap.sim hruns.sim hsl hruns.pcb hq
  have hstep : m.step e = exitTrap (m.kernel.withIntrs e.level) >>= fun r =>
      .ok ({ m with kernel := r.2 }, none) := by
    simp only [Machine.step, he]
    rfl
  rcases ps with _ | ⟨r, rs⟩
  · obtain ⟨line, hrun⟩ := hlast rfl
    have hsys : m.system.step v e.event = none := by simp only [he, System.step, hq]
    rw [hsys]
    exact ⟨line, by rw [hstep, hrun]; rfl⟩
  · obtain ⟨k0, k', hrun, hsim, hc, hf, hfree⟩ := hnext r rs rfl
    have hsys : m.system.step v e.event =
        some ((m.system.move p .runQueue .freepcbs).move r .runQueue .runQueue, none) := by
      simp only [he, System.step, hq]
    have hc' : k'.currentPCB =
        ((m.system.move p .runQueue .freepcbs).move r .runQueue .runQueue).current := by
      rw [hc, System.current]
      simp [moveLast, hq]
    obtain ⟨hsys', hgood⟩ := h.next m.frames hr hsys hsim rfl hc'
    rw [hsys]
    refine ⟨_, by rw [hstep, hrun]; rfl, hsys', hgood, ?_, by simp [he]⟩
    rw [he]
    exact ⟨p, k0, hp, (Frozen.withIntrs m.kernel e.level).trans hf, hfree⟩

/-- A fork needs a free process, and two free pages. -/
theorem Machine.step_fork (h : Good m) (hr : m.Ready e) {isUser loads : Bool}
    (he : e.event = .fork isUser loads) (v : Int) :
    (m.system.step v e.event = none ∧ Goes m e none) ∨
      ∃ p k0, (m.system.queue .freepcbs).head? = some p ∧ Frozen m.kernel k0 ∧
        (∀ x, forkMemory p k0 = .error x → m.step e = .error x) ∧
        ∀ k1, forkMemory p k0 = .ok ((), k1) → Goes m e (m.system.step v e.event) := by
  obtain ⟨home, waits, hsl⟩ := h.inv.sleepers
  have hsim0 := h.sim.withIntrs e.level
  have hstep : m.step e = ProcessFork isUser loads (m.kernel.withIntrs e.level) >>= fun r =>
      .ok ({ m with kernel := r.2 }, none) := by
    simp only [Machine.step, he]
    rfl
  rcases hq : m.system.queue .freepcbs with _ | ⟨p, ps⟩
  · refine .inl ⟨by simp only [he, System.step, hq], "FATAL error: no free processes!", ?_⟩
    rw [hstep, ProcessFork.nil hsim0.rep hq isUser loads]
    rfl
  obtain ⟨k0, hf0, herr, hok⟩ := ProcessFork.sim hsim0 hsl.placed hq isUser loads
  have hf0 := (Frozen.withIntrs m.kernel e.level).trans hf0
  refine .inr ⟨p, k0, rfl, hf0, fun x hx => by rw [hstep, herr x hx]; rfl, fun k1 hk1 => ?_⟩
  have hok := hok k1 hk1
  by_cases hfail : (isUser && !loads) = true
  · rw [if_pos hfail] at hok
    obtain ⟨k2, k', hrun, hsim, hc, hf, hfree⟩ := hok
    have hsys : m.system.step v e.event = some (m.system.move p .freepcbs .freepcbs, none) := by
      simp only [he, System.step, hq, if_pos hfail]
    have hc' : k'.currentPCB = (m.system.move p .freepcbs .freepcbs).current := by
      rw [hc, System.current, System.move_queue, moveLast, update_of_ne (by simp),
        update_of_ne (by simp)]
      exact h.current
    obtain ⟨hsys', hgood⟩ := h.next m.frames hr hsys hsim rfl hc'
    rw [hsys]
    refine ⟨_, by rw [hstep, hrun]; rfl, hsys', hgood, ?_, by simp [he]⟩
    rw [he]
    refine ⟨p, k0, k1, by simp [hq], hf0, hk1, ?_⟩
    rw [if_pos hfail]
    exact ⟨k2, hf, hfree⟩
  · rw [if_neg hfail] at hok
    obtain ⟨k', hrun, hsim, hc, hf⟩ := hok
    have hsys : m.system.step v e.event = some (m.system.move p .freepcbs .runQueue, none) := by
      simp only [he, System.step, hq, if_neg hfail]
    have hc' : k'.currentPCB = (m.system.move p .freepcbs .runQueue).current := by
      rw [hc, System.current]
      have := h.current
      rw [System.current] at this
      simp [moveLast, this]
    obtain ⟨hsys', hgood⟩ := h.next m.frames hr hsys hsim rfl hc'
    rw [hsys]
    refine ⟨_, by rw [hstep, hrun]; rfl, hsys', hgood, ?_, by simp [he]⟩
    rw [he]
    refine ⟨p, k0, k1, by simp [hq], hf0, hk1, ?_⟩
    rw [if_neg hfail]
    exact hf

/-- The calls for shared pages change the memory only. -/
theorem Machine.step_share (h : Good m) (hr : m.Ready e) {c : Call} (he : e.event = .call c)
    (hc : c.isSync = false) (hs : m.step e = .ok (m', r)) :
    ∃ v, m.system.step v e.event = some (m'.system, r) ∧ Follows m e m'.system r m' := by
  obtain ⟨p, hp, _⟩ : ∃ p, m.system.current = some p ∧ m.system.stopped p = none := by
    have := (h.ready e).mp hr
    rwa [he] at this
  have hruns := h.runs hp e.level
  obtain ⟨ps, hq⟩ := current_cons hp
  have hrun : m.step e = trap c (m.kernel.withIntrs e.level) >>= fun r => m.finish p c r.1 r.2 := by
    simp only [Machine.step, he]
    change (GetCurrentPid (m.kernel.withIntrs e.level) >>= fun _ => _) = _
    rw [GetCurrentPid_run hruns.pcb]
    rfl
  -- both calls return, and they change no more than the memory
  obtain ⟨n, k1, htrap, hsim1, hc1, hmem1⟩ : ∃ n k1,
      trap c (m.kernel.withIntrs e.level) = .ok (.returns n, k1) ∧ Sim k1 m.system ∧
      k1.currentPCB = m.kernel.currentPCB ∧
      ∀ k', Frozen k1 k' → MemEffect m.kernel k' m.system (.call c) := by
    cases c with
    | shareCreatePage =>
      have htrap : trap .shareCreatePage (m.kernel.withIntrs e.level) =
          returning (MemoryCreateSharedPage p) (m.kernel.withIntrs e.level) :=
        K.bind_ok (GetCurrentPid_run hruns.pcb)
      rcases hcr : MemoryCreateSharedPage p (m.kernel.withIntrs e.level) with x | ⟨n, k1⟩
      · rw [hrun, htrap, returning, K.bind_error hcr] at hs
        cases hs
      · obtain ⟨hsim1, hc1⟩ := MemoryCreateSharedPage.sim hruns.sim hcr
        exact ⟨n, k1, htrap.trans (returning_run hcr), hsim1, hc1, fun _ _ => trivial⟩
    | shareMapPage handle =>
      have htrap : trap (.shareMapPage handle) (m.kernel.withIntrs e.level) =
          returning (mmap p handle) (m.kernel.withIntrs e.level) :=
        K.bind_ok (GetCurrentPid_run hruns.pcb)
      obtain ⟨n, k1, hmm, hsim1, hc1⟩ := mmap.sim hruns.sim p handle
      refine ⟨n, k1, htrap.trans (returning_run hmm), hsim1, hc1, fun k' hf hz => ?_⟩
      have hsame := mmap.unshared (k := m.kernel.withIntrs e.level) hz p handle
      obtain ⟨_, rfl⟩ := Prod.mk.inj (Except.ok.inj (hmm.symm.trans hsame))
      exact (Frozen.withIntrs m.kernel e.level).trans hf
    | _ => cases hc
  obtain ⟨k2, hset, hsim2, hquiet⟩ := hsim1.setResult p n
  have hstep : m.step e = .ok (⟨k2, update m.frames p none⟩, some (c, n)) := by
    rw [hrun, htrap]
    simp only [bind, Except.bind, Machine.finish, hset]
    rfl
  have hsys : m.system.step n e.event = some (m.system.setStopped p none, some (c, n)) := by
    simp only [he, System.step, hq]
    cases c <;> first | rfl | cases hc
  have hstop : (fun q => (update m.frames p none q).map fun f => (f.call, f.place.stop)) =
      (m.system.setStopped p none).stopped := by
    funext q
    by_cases hqp : q = p
    · subst hqp; simp
    · simp [hqp, Machine.system]
  obtain ⟨hsys', hgood⟩ := h.next _ hr hsys (hsim2.setStopped p none) hstop
    (hquiet.current.trans (hc1.trans h.current))
  obtain ⟨rfl, rfl⟩ := Prod.mk.inj (Except.ok.inj (hs.symm.trans hstep))
  refine ⟨n, by rw [hsys, hsys'], hstep, rfl, hgood, ?_, ?_⟩
  · rw [he]
    exact hmem1 _ hquiet.frozen
  · rintro _ ⟨⟩

/-- Every step of the machine is a step of the system that it shows. -/
theorem Machine.step_follows (h : Good m) (hr : m.Ready e) (hs : m.step e = .ok (m', r)) :
    ∃ v, m.system.step v e.event = some (m'.system, r) ∧ Follows m e m'.system r m' := by
  -- where both go on, they come to the same state
  have hgoes : ∀ x, Goes m e x → x = m.system.step 0 e.event →
      ∃ v, m.system.step v e.event = some (m'.system, r) ∧ Follows m e m'.system r m' := by
    rintro (_ | ⟨b, r'⟩) hx hv
    · obtain ⟨line, herr⟩ := hx
      cases hs.symm.trans herr
    · obtain ⟨m2, hf⟩ := hx
      obtain ⟨rfl, rfl⟩ := Prod.mk.inj (Except.ok.inj (hs.symm.trans hf.run))
      obtain rfl := hf.system
      exact ⟨0, hv.symm, hf⟩
  cases he : e.event with
  | timer => exact he ▸ hgoes _ (Machine.step_rotate h hr (.inl he) 0) rfl
  | contextSwitch => exact he ▸ hgoes _ (Machine.step_rotate h hr (.inr he) 0) rfl
  | exit => exact he ▸ hgoes _ (Machine.step_exit h hr he 0) rfl
  | resume => exact he ▸ hgoes _ (Machine.step_resume h hr he 0) rfl
  | fork isUser loads =>
    rcases Machine.step_fork h hr he 0 with ⟨hnone, hx⟩ | ⟨p, k0, _, _, herr, hok⟩
    · exact he ▸ hgoes _ hx hnone.symm
    · rcases hm : forkMemory p k0 with x | ⟨⟨⟩, k1⟩
      · cases hs.symm.trans (herr x hm)
      · exact he ▸ hgoes _ (hok k1 hm) rfl
  | call c =>
    rcases hc : c.isSync with _ | _
    · exact he ▸ Machine.step_share h hr he hc hs
    · exact he ▸ hgoes _ (Machine.step_sync h hr he hc 0) rfl

end dlxos
