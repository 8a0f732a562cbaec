-- The producers and consumers of `q4` on the kernel. A consumer that waits for
-- a character waits for good, so what ends the simulation tells whether one has
-- done so.
import DlxOs.SleepingConsumers
import DlxOs.UserlandEnds
import DlxOs.UserlandExec

namespace dlxos.q4

open Function runs monitor

variable {N : Nat} {s t : State (Proc N) L Buffer Cond Sem} {p : Proc N} {i : Fin N}
  {B : Binding Cond Sem} {w w' : World (Proc N) L Buffer}
  {tr : List (Move (World (Proc N) L Buffer) (Option Label))}

/-! ## The semaphore of `makeprocs` -/

/-- What a process has got from `s_procs_completed`, or given to it. -/
def asks : ∀ p : Proc N, L p → Int
  | .makeprocs, .wait => 0
  | .makeprocs, .done => 1
  | .producer _, l => if l.line = ProducerLine.done then -1 else 0
  | .consumer _, l => if l.line = ConsumerLine.done then -1 else 0

theorem asks_step (p : Proc N) (l : L p) (cb : Buffer) (l' : L p) (cb' : Buffer)
    (hn : ((program N).op p l).next cb = some (l', cb')) :
    asks p l' = asks p l + ((program N).op p l).units .s_procs_completed := by
  rcases p with _ | i | i
  · cases l <;> cases hn
    rfl
  · rcases l with ⟨_ | _ | _ | _ | _ | _, k⟩ <;> simp only [program, producer] at hn ⊢
    · split at hn <;> cases hn <;> simp [asks, Op.units, *]
    · cases hn
      dsimp only
      split <;> simp [asks, Op.units]
    all_goals cases hn
    all_goals simp [asks, Op.units]
  · rcases l with ⟨_ | _ | _ | _ | _ | _ | _, k⟩ <;> simp only [program, consumer] at hn ⊢
    · split at hn <;> cases hn <;> simp [asks, Op.units, *]
    · cases hn
      dsimp only
      split <;> simp [asks, Op.units]
    all_goals cases hn
    all_goals simp [asks, Op.units]

theorem sem_law (h : (program N).Reachable s) : (s.shared.sems .s_procs_completed).count +
    ∑ p, s.got .s_procs_completed asks p = procsCompleted N := by
  have hlaw := semaphore_law (m := .s_procs_completed) asks asks_step h
  have hstart : ∑ p, asks p ((program N).start p) = 0 :=
    Finset.sum_eq_zero fun p _ => by rcases p with _ | i | i <;> rfl
  have hcount : (program N).count .s_procs_completed = procsCompleted N := rfl
  omega

theorem bounded (hN : FitsTable N) : Bounded (program N) := by
  rintro s h ⟨⟩
  refine count_small hN (sem_law h) ?_ fun p => ?_
  · simp only [procsCompleted]
    omega
  · have hasks : -1 ≤ asks p (s.locs p) := by
      rcases p with _ | i | i
      · cases hl : s.locs .makeprocs <;> simp [asks]
      · simp only [asks]
        split <;> omega
      · simp only [asks]
        split <;> omega
    unfold State.got
    split <;> omega

/-- A pair that has finished has given its two units. -/
theorem makeprocs_finished (h : (program N).Reachable s) (hs : (program N).Stuck s)
    (hfin : PairsFinished s) : (program N).Finished s .makeprocs := by
  refine ((h.ok.stuck hs).2 _).resolve_right ?_
  rintro ⟨w, l, hpc, hw⟩
  obtain ⟨rfl, rfl⟩ : w = .sem .s_procs_completed ∧ l = ParentLine.done := by
    obtain ⟨l0, cb, cb', hgoes⟩ := asleep_from h hw .makeprocs l hpc
    cases l0 <;> cases hgoes
    exact ⟨rfl, rfl⟩
  have hneg : (s.shared.sems .s_procs_completed).count ≤ 0 := asleep_count h hpc
  have hlaw := sem_law h
  have hgot : ∀ p, p ≠ .makeprocs → s.got .s_procs_completed asks p = -1 := by
    intro p hp
    obtain ⟨l, hl, hop⟩ := hfin p hp
    unfold State.got
    rw [locs_ready hl, hl, Point.place_ready, if_neg (by simp)]
    rcases p with _ | i | i
    · exact absurd rfl hp
    · rcases l with ⟨_ | _ | _ | _ | _ | _, k⟩ <;> simp only [program, producer] at hop
      · split at hop <;> cases hop
      all_goals cases hop
      simp [asks]
    · rcases l with ⟨_ | _ | _ | _ | _ | _ | _, k⟩ <;> simp only [program, consumer] at hop
      · split at hop <;> cases hop
      all_goals cases hop
      simp [asks]
  have hparent : s.got .s_procs_completed asks .makeprocs = 0 := by
    have hloc : s.locs .makeprocs = ParentLine.done := locs_asleep hpc
    unfold State.got
    rw [hpc, hloc]
    rfl
  have hone := procs_completed hlaw hparent hgot
  omega

theorem asleep_before {q : Proc N} {l : L q} {k : Cond} (hs : (program N).Step s p t)
    (hq : q ≠ p) (hpc : t.pc q = .asleep (.cond k) l) : s.pc q = .asleep (.cond k) l := by
  rcases step_cases hs with ⟨e, _, _, rfl⟩ | ⟨_, rfl⟩
  all_goals
    rw [s.after_of_ne _ hq] at hpc
    split at hpc
    · have hplace := congrArg Point.place hpc
      rw [Point.place_wake] at hplace
      cases hplace
    · exact hpc

/-! ## The end of the simulation -/

/-- A consumer that calls `cond_wait` has found the buffer empty. -/
theorem doomed_of_call (hw : w.Shows B s)
    (hc : World.Waiting (program N) B (.consumer i) .c_fullslots w) : Doomed s i := by
  obtain ⟨x, l, hp, hf, hop⟩ := hc
  have hpc := hw.ready hp hf
  generalize w.loc (.consumer i) = l0 at hpc hop
  left
  rcases l0 with ⟨_ | _ | _ | _ | _ | _ | _, k⟩ <;> simp only [program, consumer] at hop
  · split at hop <;> cases (Prod.mk.inj (Option.some.inj hop)).1
  · cases hop
  · exact ⟨k, hpc⟩
  · cases hop
  · cases (Prod.mk.inj (Option.some.inj hop)).1
  · cases (Prod.mk.inj (Option.some.inj hop)).1
  · cases hop

theorem Doomed.world (hb : Bounded (program N)) (h : w.Ok B) (hg : (program N).Reachable s)
    (hw : w.Shows B s) (hd : Doomed s i) (hr : Run (World.Step (program N) B) w tr w') :
    ∃ t, (program N).Reachable t ∧ w'.Shows B t ∧ Doomed t i := by
  refine (hr.invariant (I := fun w => w.Ok B ∧ ∃ s, (program N).Reachable s ∧ w.Shows B s ∧
    Doomed s i) (fun w _ w' hI hs => ?_) ⟨h, s, hg, hw, hd⟩).2
  obtain ⟨h, s, hg, hw, hd⟩ := hI
  obtain ⟨h', hw' | ⟨p, t, ht, hw'⟩⟩ := hw.step hb h hg hs
  · exact ⟨h', s, hg, hw', hd⟩
  · exact ⟨h', t, hg.step ht, hw', hd.step hg ht⟩

/-- Where no process can run, and no consumer waits for a character, all have
come to their end. -/
theorem all_finished (hg : (program N).Reachable s) (hs : (program N).Stuck s)
    (hno : ∀ i l, s.pc (.consumer i) ≠ .asleep (.cond .c_fullslots) l) (p : Proc N) :
    (program N).Finished s p := by
  have hawake : Awake s := by
    intro i
    rcases (hg.ok.stuck hs).2 (.consumer i) with ⟨l, hpc, hdone⟩ | ⟨q, l, hpc, hq⟩
    · rw [locs_ready hpc, hpc]
      refine ⟨fun hline => ?_, by simp⟩
      obtain ⟨line, k⟩ := l
      subst hline
      cases hdone
    · obtain rfl : q = .cond .c_fullslots := sleeps_at hg hpc hq
      exact absurd hpc (hno i l)
  have hpairs := hawake.finished hg hs
  by_cases hp : p = .makeprocs
  · subst hp
    exact makeprocs_finished hg hs hpairs
  · exact hpairs p hp

theorem not_asleep (hw : w.Shows B s) (h : w.Ok B) (hg : (program N).Reachable s)
    (hrec : World.Recorded B tr w)
    (hno : ∀ i, ¬ World.CondWaited B (.consumer i : Proc N) .c_fullslots tr) (l : L (.consumer i)) :
    s.pc (.consumer i) ≠ .asleep (.cond .c_fullslots) l := by
  intro hpc
  obtain ⟨x, c, stop, hp, hst, hq, _⟩ := hw.waits h hg.ok hpc
  cases hq with
  | condWait => exact hno i (hrec.calls _ x c _ hp hst)

/-- While only its processes run, `q4` ends in one of two ways. If a consumer
has ever called `cond_wait`, the kernel finds it asleep when nobody is left to
run. If none has, the last process ends, and all programs are at their end. -/
theorem ends_on_the_kernel (hN : FitsTable N) (h0 : w.Starts (program N) B)
    (hr : Run (World.Step (program N) B) w tr w') (ha : w'.Alone (program N)) {e : Entry}
    (hready : w'.machine.Ready e) (he : w'.Enters (program N) B e.event) {h : Halt}
    (hend : w'.machine.step e = .error h) :
    ((∃ i, World.CondWaited B (.consumer i : Proc N) .c_fullslots tr ∨
        World.CondWaits B (.consumer i) .c_fullslots w' e.event) →
      h = .exitsim
        "FATAL ERROR: no runnable processes, but there are sleeping processes waiting!") ∧
    ((∀ i, ¬ World.CondWaited B (.consumer i : Proc N) .c_fullslots tr ∧
        ¬ World.CondWaits B (.consumer i) .c_fullslots w' e.event) →
      e.event = .exit ∧ h = .exitsim "No runnable processes - exiting!" ∧
        ∀ p, (program N).op p (w'.loc p) = .done) := by
  have hb := bounded hN
  have hlives := h0.lives hb hr
  obtain ⟨hok, s, hg, hw⟩ := h0.run hb hr
  constructor
  · rintro ⟨i, hcalls⟩
    obtain ⟨t, hg, hw, hd⟩ : ∃ t, (program N).Reachable t ∧ w'.Shows B t ∧ Doomed t i := by
      rcases hcalls with ⟨mv, hmv, l, hl, hc⟩ | hc
      · obtain ⟨tr1, tr2, rfl⟩ := List.append_of_mem hmv
        obtain ⟨w1, hr1, hr2⟩ := hr.split
        obtain ⟨hok1, s1, hg1, hw1⟩ := h0.run hb hr1
        obtain ⟨rfl, hs, _⟩ := hr2.uncons
        rw [hl] at hs
        exact Doomed.world hb hok1 hg1 hw1 (doomed_of_call hw1 (hs.waiting hok1 hc)) hr2
      · exact ⟨s, hg, hw, doomed_of_call hw (he.waiting hok hready hc)⟩
    rcases hw.ends hok hg hlives ha hready he hend with
      ⟨_, hstuck, hsame⟩ | ⟨_, _, _, _, _, _, _, _, _, rfl⟩
    · obtain ⟨l, hpc⟩ := hd.asleep hg hstuck
      obtain ⟨_, _, _, _, _, _, hwait⟩ := hw.waits hok hg.ok hpc
      exact World.sleepers_exit hwait hsame
    · rfl
  · intro hno
    have hrec := h0.recorded hr
    have hnot := fun i l => not_asleep hw hok hg hrec (fun i => (hno i).1) (i := i) l
    rcases hw.ends hok hg hlives ha hready he hend with
      ⟨hexit, hstuck, hsame⟩ | ⟨p, x, t, hx, hp, hstep, hstuck, hplace, hcond, _⟩
    · have hfin := all_finished hg hstuck hnot
      refine ⟨hexit, hw.exit_ends hok hg.ok ha hfin hsame, fun p => ?_⟩
      obtain ⟨l, hl, hop⟩ := hfin p
      rw [← hw.locs, locs_ready hl]
      exact hop
    · -- the process that went to sleep is no consumer that waits
      have hfin := all_finished (hg.step hstep) hstuck (fun i l hpc => ?_) p
      · obtain ⟨l, hl, _⟩ := hfin
        rw [hl] at hplace
        exact absurd rfl hplace
      · by_cases hpi : .consumer i = p
        · subst hpi
          exact (hno i).2 ⟨hcond .c_fullslots (by rw [hpc]; rfl), x, hx, hp⟩
        · exact hnot i l (asleep_before hstep hpi hpc)

/-! ## A run -/

instance (p : Proc N) : DecidableEq (L p) :=
  match p with
  | .makeprocs => inferInstanceAs (DecidableEq ParentLine)
  | .producer _ => inferInstanceAs (DecidableEq (Loc ProducerLine))
  | .consumer _ => inferInstanceAs (DecidableEq (Loc ConsumerLine))

instance : Fintype Cond where
  elems := {.c_fullslots, .c_emptyslots}
  complete c := by cases c <;> decide

instance : Fintype Sem where
  elems := {.s_procs_completed}
  complete m := by cases m; decide

/-- The handles that `makeprocs` gets on a kernel without other objects. -/
def handles : Binding Cond Sem where
  lock := 0
  cond
    | .c_fullslots => 0
    | .c_emptyslots => 1
  sem _ := 0
  cond_inj := by rintro (_ | _) (_ | _) h <;> first | rfl | cases h
  sem_inj := by rintro ⟨⟩ ⟨⟩ _; rfl

/-- `makeprocs` makes its objects. -/
def setup : List Event := [.fork true true, .call (.semCreate (procsCompleted 1)),
  .call .lockCreate, .call (.condCreate 0), .call (.condCreate 0)]

/-- `makeprocs` makes one pair and waits for it. The consumer runs first, and
then the producer to its end. -/
def order (i : Fin N) : List (Turn (Proc N)) :=
  [.fork, .fork, .start .makeprocs, .go .makeprocs] ++
    [.start (.consumer i)] ++ List.replicate 3 (.go (.consumer i)) ++
    [.start (.producer i)] ++ List.replicate 41 (.go (.producer i))

/-- One pair: the producer has come to its end, and the other two sleep. -/
theorem exists_kernel_run : ∃ (w : World (Proc 1) L Buffer) (tr : _)
    (w' : World (Proc 1) L Buffer),
    w.Starts (program 1) handles ∧ Run (World.Step (program 1) handles) w tr w' ∧
    (w'.machine.queue .runQueue = [29] ∧ w'.machine.queue .waitQueue = [31, 30] ∧
      w'.machine.system.stopped 29 = none ∧ w'.pid .makeprocs = some 31 ∧
      w'.pid (.consumer 0) = some 30 ∧ w'.pid (.producer 0) = some 29) ∧
    ((program 1).op (.producer 0) (w'.loc (.producer 0)) = .done ∧
      w'.mem.inserted = BUF_ITEM.toList) ∧
    ∃ mv ∈ tr, ∃ e, mv.pre.machine.system.current = some 30 ∧
      mv.pre.pid (.consumer 0) = some 30 ∧ mv.label = some (e, none) ∧
      e.event = .call (.condWait 0) := by
  obtain ⟨w, tr, w', h0, hr, hq⟩ := exists_starts_run (g := program 1) (B := handles) setup
    (order 0) (fun ms u => decide ((u.system.queue .runQueue = [29] ∧
        u.system.queue .waitQueue = [31, 30] ∧ u.system.stopped 29 = none ∧
        u.pid .makeprocs = some 31 ∧ u.pid (.consumer 0) = some 30 ∧
        u.pid (.producer 0) = some 29) ∧
      (((program 1).op (.producer 0) (u.loc (.producer 0)) matches .done) = true ∧
        u.mem.inserted = BUF_ITEM.toList) ∧
      ∃ mv ∈ ms, mv.pre.system.current = some 30 ∧ mv.pre.pid (.consumer 0) = some 30 ∧
        mv.label = some (.call (.condWait 0), none))) (by decide +kernel)
  obtain ⟨hlast, ⟨hd, hmem⟩, _, hmv, h1, h2, h3⟩ := of_decide_eq_true hq
  obtain ⟨mv, hm, rfl⟩ := List.mem_map.mp hmv
  refine ⟨w, tr, w', h0, hr, hlast, ⟨?_, hmem⟩, mv, hm, ?_⟩
  · split at hd
    · assumption
    · cases hd
  · obtain ⟨⟨e, r⟩, hlabel, he⟩ := Option.map_eq_some_iff.mp h3
    obtain ⟨hev, rfl⟩ := Prod.mk.inj he
    exact ⟨e, h1, h2, hlabel, hev⟩

/-- The exit of the producer ends the simulation, and its consumer sleeps. -/
theorem sleeper_on_the_kernel : ∃ w' : World (Proc 1) L Buffer,
    w'.mem.inserted = BUF_ITEM.toList ∧ w'.machine.step ⟨.exit, 0⟩ = .error (.exitsim
      "FATAL ERROR: no runnable processes, but there are sleeping processes waiting!") := by
  obtain ⟨w, tr, w', h0, hr, ⟨hrun, hwait, hst, hk, hc, hp⟩, ⟨hd, hmem⟩, mv, hmv, e, h1, h2, h3,
    hev⟩ := exists_kernel_run
  have hN : FitsTable 1 := by
    unfold FitsTable
    decide
  obtain ⟨hok, _⟩ := h0.run (bounded hN) hr
  have hcur : w'.machine.system.current = some 29 := current_eq hrun
  have hready : w'.machine.Ready ⟨.exit, 0⟩ := (hok.reachable.good.ready _).mpr ⟨29, hcur, hst⟩
  have halone : w'.Alone (program 1) := by
    constructor
    · rintro x (hx | hx)
      · rw [hrun, List.mem_singleton] at hx
        exact ⟨.producer 0, hx ▸ hp⟩
      · rw [hwait, List.mem_cons, List.mem_singleton] at hx
        rcases hx with rfl | rfl
        · exact ⟨.makeprocs, hk⟩
        · exact ⟨.consumer 0, hc⟩
    · rintro (_ | i | i) hnone
      · cases hk.symm.trans hnone
      · obtain rfl : i = 0 := Subsingleton.elim ..
        cases hp.symm.trans hnone
      · obtain rfl : i = 0 := Subsingleton.elim ..
        cases hc.symm.trans hnone
  have hends := hok.reachable.good.step_ends hready
  have hending : w'.machine.ending .exit = some (if w'.machine.system.queue .waitQueue = [] then
      noRunnable else sleepersWait) := by
    simp only [Machine.ending, System.exitEnding, system_queue, hrun, List.tail_cons, if_true]
  rw [hending] at hends
  have hmsg := (ends_on_the_kernel hN h0 hr halone hready (.exit hcur hp hd) hends).1
    ⟨0, .inl ⟨mv, hmv, _, h3, hev, 30, h1, h2⟩⟩
  refine ⟨w', hmem, ?_⟩
  rw [← hmsg]
  exact hends

end dlxos.q4
