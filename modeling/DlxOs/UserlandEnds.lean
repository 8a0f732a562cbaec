-- How the simulation ends while it runs programs only. An entry of the kernel
-- that ends the simulation leaves the monitor in a state in which no process
-- can run. So where the monitor comes to no such state before all its
-- processes have finished, the kernel has no deadlock.
import DlxOs.Endings
import DlxOs.LockDeath
import DlxOs.UserlandRuns

namespace dlxos

open Function runs monitor

variable {P V C M : Type} {L : P → Type} {B : Binding C M} {x y : Pid} {w w' : World P L V}
  {s : State P L V C M} {p : P} {ent : Entry} {g : Program P L V C M} {h : Halt}

namespace World

/-- All processes that exist run programs, and the other programs have come to
their end. -/
structure Alone (g : Program P L V C M) (w : World P L V) : Prop where
  bound : ∀ x, w.machine.Live x → ∃ p, w.pid p = some x
  ended : ∀ p, w.pid p = none → g.op p (w.loc p) = .done

/-- The kernel is entered by the timer, by the end of a sleep, or by the process
that runs, at the next line of its program. -/
inductive Enters (g : Program P L V C M) (B : Binding C M) (w : World P L V) : Event → Prop where
  | timer : Enters g B w .timer
  | resume : Enters g B w .resume
  | call {p : P} {x : Pid} {c : Call} {l : L p} (hx : w.machine.system.current = some x)
      (hp : w.pid p = some x) (hop : B.call (g.op p (w.loc p)) = some (c, l)) :
    Enters g B w (.call c)
  | exit {p : P} {x : Pid} (hx : w.machine.system.current = some x) (hp : w.pid p = some x)
      (hop : g.op p (w.loc p) = .done) : Enters g B w .exit

/-- The processes that run programs exist. -/
def Lives (w : World P L V) : Prop := ∀ p x, w.pid p = some x → x ∉ w.machine.queue .freepcbs

theorem Lives.next (h : w.Lives) (hok : w.Ok B) {m : Machine} {r : Return}
    (hs : w.machine.Step (ent, r) m)
    (hx : ent.event = .exit → ∀ x, w.machine.system.current = some x → w.Stranger x) :
    Lives { w with machine := m } := by
  intro p x hp hmem
  obtain ⟨_, v, hv⟩ := (hok.reachable.good.step hs).1
  obtain ⟨he, hcur⟩ := step_frees hv (h p x hp) hmem
  exact hx he x hcur p hp

variable [DecidableEq P]

/-- A process ends where its program does. -/
theorem Lives.step (h : w.Lives) (hok : w.Ok B) {l : Option Label} (hs : World.Step g B w l w') :
    w'.Lives := by
  cases hs with
  | kernel hs he =>
    refine h.next hok hs fun hexit => ?_
    rcases he with he | he <;> cases he.symm.trans hexit
  | stranger hs hx => exact h.next hok hs fun _ => hx
  | call hs _ _ _ he => exact h.next hok hs fun hexit => by cases he.symm.trans hexit
  | @exit p x ent r m hs hx hp _ he =>
    intro p' y hp' hmem
    obtain ⟨_, v, hv⟩ := (hok.reachable.good.step hs).1
    by_cases hpp : p' = p
    · subst hpp
      simp at hp'
    · replace hp' : w.pid p' = some y := by simpa [hpp] using hp'
      obtain ⟨_, hcur⟩ := step_frees hv (h p' y hp') hmem
      obtain rfl := Option.some.inj (hx.symm.trans hcur)
      exact hpp (hok.inj p' p x hp' hp)
  | @start p x hx _ _ _ _ =>
    intro p' y hp' hmem
    by_cases hpp : p' = p
    · subst hpp
      obtain rfl : x = y := by simpa using hp'
      obtain ⟨ps, hq⟩ := current_cons hx
      rw [system_queue] at hq
      refine (hok.reachable.good.live_iff x).mp (.inl ?_) hmem
      rw [hq]
      exact List.mem_cons_self
    · exact h p' y (by simpa [hpp] using hp') hmem
  | access => exact h

variable [DecidableEq C] [DecidableEq M]

theorem Starts.lives (hb : Bounded g) (h0 : w.Starts g B)
    {tr : List (Move (World P L V) (Option Label))} (hr : Run (World.Step g B) w tr w') :
    w'.Lives := by
  refine (hr.invariant (I := fun w => w.Lives ∧ w.Ok B ∧ ∃ s, g.Reachable s ∧ w.Shows B s)
    (fun w _ w' hI hs => ?_) ⟨?_, h0.ok, g.init, .init, h0.shows⟩).1
  · obtain ⟨hl, hok, s, hg, hw⟩ := hI
    refine ⟨hl.step hok hs, ?_⟩
    obtain ⟨h', hw' | ⟨p, t, ht, hw'⟩⟩ := hw.step hb hok hg hs
    · exact ⟨h', s, hg, hw'⟩
    · exact ⟨h', t, hg.step ht, hw'⟩
  · intro p x hp
    rw [h0.pid] at hp
    cases hp

/-! ## The last process that runs -/

/-- The process cannot run. -/
def Rests (g : Program P L V C M) (s : State P L V C M) (p : P) : Prop :=
  g.Finished s p ∨ ∃ q l, s.pc p = .asleep q l

omit [DecidableEq P] [DecidableEq C] [DecidableEq M] in
/-- A process on the wait queue sleeps at a place of its program. -/
theorem Shows.asleep (hw : w.Shows B s) (h : w.Ok B) (hg : monitor.Ok g s) (hp : w.pid p = some x)
    (hwait : x ∈ w.machine.system.queue .waitQueue) : ∃ q l, s.pc p = .asleep q l := by
  obtain ⟨home, waits, hsl⟩ := h.inv.sleepers
  obtain ⟨k, hk⟩ := Option.ne_none_iff_exists'.mp
    ((hsl.waiting x).mp ((hsl.placed.mem_proc rfl x).mp hwait))
  have hmem := (hsl.placed.mem_wait (hsl.placed.isWait x k hk) x).mpr hk
  obtain ⟨c, stop, hstop, hqueue⟩ := hsl.stops x k hk
  have hpt := hw.points p
  rw [hp, Option.bind_some, hstop] at hpt
  generalize hpc : s.pc p = pt at hpt
  cases hpt with
  | @asleep _ _ q l hq => exact ⟨q, l, rfl⟩
  | @woken _ _ q l hq =>
    -- the queue of the monitor has the process, so it was not woken
    rw [← hqueue, h.created.stopQueue hq] at hmem
    have hmap : some x ∈ (s.shared.queue q).map w.pid := by
      rw [← Shared.queue_map, hw.shared, Shared.queue_map, Binding.shared_queue]
      exact List.mem_map_of_mem hmem
    obtain ⟨p', hp', he⟩ := List.mem_map.mp hmap
    obtain rfl := h.inj p' p x he hp
    have hplace := (hg.mem_queue q p').mp hp'
    rw [hpc, Point.place_wake] at hplace
    cases hplace

omit [DecidableEq P] [DecidableEq C] [DecidableEq M] in
/-- Where one process runs alone, the other ones sleep, or have come to their
end. -/
theorem Shows.rests (hw : w.Shows B s) (h : w.Ok B) (hg : monitor.Ok g s) (hl : w.Lives)
    (ha : w.Alone g) (hp : w.pid p = some x)
    (hlast : w.machine.system.queue .runQueue = [x]) {p' : P} (hne : p' ≠ p) :
    Rests g s p' := by
  rcases hp' : w.pid p' with _ | y
  · exact .inl ⟨_, hw.ready' hp', ha.ended p' hp'⟩
  · refine .inr (hw.asleep h hg hp' ?_)
    rcases (h.reachable.good.live_iff y).mpr (hl p' y hp') with hrun | hwait
    · rw [← system_queue, hlast, List.mem_singleton] at hrun
      subst hrun
      exact absurd (h.inj p' p y hp' hp) hne
    · exact hwait

theorem Rests.step_none (hr : Rests g s p) : g.step s p = none := by
  rcases hr with ⟨l, hl, hop⟩ | ⟨q, l, hq⟩
  · simp [Program.step, Program.effect, hl, hop, Shared.effect]
  · simp [Program.step, Program.effect, hq]

/-- Where the process that runs goes to sleep and wakes nobody, no process can
run. -/
theorem stuck_after (hrests : ∀ p', p' ≠ p → Rests g s p') {e : Effect (L p) P V C M}
    (hpoint : e.point.place ≠ none) (hwoke : e.woke = none) : g.Stuck (s.after p e) := by
  intro p'
  refine Rests.step_none ?_
  by_cases hp' : p' = p
  · subst hp'
    obtain ⟨q, hq⟩ := Option.ne_none_iff_exists'.mp hpoint
    exact .inr ⟨q, e.point.loc, (s.after_self _ e).trans (point_of_place hq)⟩
  · have hsame : (s.after p e).pc p' = s.pc p' := by
      rw [s.after_of_ne e hp', hwoke, if_neg (by simp)]
    unfold Rests Program.Finished
    rw [hsame]
    exact hrests p' hp'

theorem sleepEnding_some {a : System} (hx : a.current = some x)
    (he : a.sleepEnding = some h) : a.queue .runQueue = [x] ∧ h = sleepersWait := by
  obtain ⟨ps, hq⟩ := current_cons hx
  unfold System.sleepEnding at he
  rw [hq, List.tail_cons] at he
  split at he
  · rename_i hps
    exact ⟨by rw [hq, hps], (Option.some.inj he).symm⟩
  · cases he

omit [DecidableEq C] [DecidableEq M] in
/-- A process that finds the lock taken sleeps. -/
theorem Shows.take_sleeps (hw : w.Shows B s) (h : w.Ok B) (hp : w.pid p = some x) {h' : Halt}
    (hx : w.machine.system.current = some x)
    (he : w.machine.system.acquireEnding x B.lock = some h') (l : L p) :
    (s.shared.take p l).point.place ≠ none ∧
      w.machine.system.queue .runQueue = [x] ∧ h' = sleepersWait := by
  unfold System.acquireEnding at he
  split at he
  · rename_i hpid
    refine ⟨?_, sleepEnding_some hx he⟩
    obtain ⟨hne, h0⟩ := hpid
    have hown : s.shared.lock.owner ≠ some p := by
      intro ho
      exact hne (lockView_owner.mp ((hw.owner h hp).mpr ho))
    have hbusy : s.shared.lock.owner ≠ none := by
      intro ho
      have hmap : (s.shared.lock.map w.pid).owner =
          ((w.machine.system.lockView B.lock).map some).owner :=
        congrArg (fun sh : Shared (Option Pid) V C M => sh.lock.owner) hw.shared
      rcases (h.inv.locks _ h.created.lock).pid with hfree | ⟨y, hy⟩
      · omega
      · simp [ho, lockView_owner.mpr hy] at hmap
    obtain ⟨r, hr⟩ := Option.ne_none_iff_exists'.mp hbusy
    have hrp : r ≠ p := fun he => hown (hr.trans (he ▸ rfl))
    simp [Shared.take, fifo.Lock.apply, hr, hrp]
  · cases he

omit [DecidableEq C] [DecidableEq M] in
theorem take_cond (sh : Shared P V C M) (l : L p) (k : C) :
    (sh.take p l).point.place ≠ some (.cond k) := by
  unfold Shared.take
  dsimp only
  split <;> simp

/-- A call that ends the simulation leaves no process that can run. -/
theorem Shows.call_ends (hw : w.Shows B s) (h : w.Ok B) (hg : g.Reachable s)
    (hrests : w.machine.system.queue .runQueue = [x] → ∀ p', p' ≠ p → Rests g s p')
    (hp : w.pid p = some x) (hx : w.machine.system.current = some x)
    (hf : w.machine.system.stopped x = none) {c : Call} {l : L p}
    (hop : B.call (g.op p (w.loc p)) = some (c, l)) {h' : Halt}
    (he : w.machine.ending (.call c) = some h') :
    ∃ t, g.Step s p t ∧ g.Stuck t ∧ (t.pc p).place ≠ none ∧
      (∀ k, (t.pc p).place = some (.cond k) → c = .condWait (B.cond k).val) ∧
      h' = sleepersWait := by
  have hpc := hw.ready hp hf
  have hown : g.inside p (w.loc p) = true →
      (w.machine.system.lockView B.lock).owner = some x := fun hin =>
    (hw.owner h hp).mpr ((hg.ok.owner p).mpr ⟨_, hpc, hin⟩)
  have hgoes : ∀ e, s.shared.effect p (g.op p (w.loc p)) = some e → e.point.place ≠ none →
      e.woke = none → (∀ k, e.point.place = some (.cond k) → c = .condWait (B.cond k).val) →
      w.machine.system.queue .runQueue = [x] ∧ h' = sleepersWait →
      ∃ t, g.Step s p t ∧ g.Stuck t ∧ (t.pc p).place ≠ none ∧
        (∀ k, (t.pc p).place = some (.cond k) → c = .condWait (B.cond k).val) ∧
        h' = sleepersWait := by
    intro e heff hpoint hwoke hcond ⟨hlast, hh⟩
    refine ⟨s.after p e, ?_, stuck_after (hrests hlast) hpoint hwoke, ?_, ?_, hh⟩
    · simp [Program.Step, Program.step, Program.effect, hpc, heff]
    · rw [State.after_self]
      exact hpoint
    · rw [State.after_self]
      exact hcond
  have hobeys := g.obeys p (w.loc p)
  generalize g.op p (w.loc p) = o at hop hobeys hgoes
  cases o <;> simp only [Binding.call, Option.some.injEq, Prod.mk.injEq, reduceCtorEq] at hop
  all_goals
    obtain ⟨rfl, rfl⟩ := hop
    simp only [Machine.ending, hx, Option.bind_some, System.callEnding, h.created.lock?,
      h.created.cond?, h.created.sem?, reduceCtorEq] at he
  case acquire l =>
    obtain ⟨hpoint, hlast⟩ := hw.take_sleeps h hp hx he l
    exact hgoes _ rfl hpoint rfl (fun k hk => absurd hk (take_cond _ l k)) hlast
  case wait k l =>
    have ho := hown hobeys.1
    have hs := (hw.owner h hp).mp ho
    simp only [System.waitEnding, h.created.conds k, lockView_owner.mp ho, if_true] at he
    split at he
    · cases he
    · rename_i hnil
      have hempty : w.machine.system.queue (.lock B.lock) = [] := by
        by_contra hne
        exact hnil ⟨h.created.lock, hne⟩
      have hwaiting : s.shared.lock.waiting = [] := by
        have hmap := congrArg (fun sh : Shared (Option Pid) V C M => sh.lock.waiting) hw.shared
        have hmap' : s.shared.lock.waiting.map w.pid =
            (w.machine.system.queue (.lock B.lock)).map some := hmap
        rw [hempty] at hmap'
        simpa using hmap'
      refine hgoes _ (if_pos hs) (by simp) ?_ (fun k' hk => ?_) (sleepEnding_some hx he)
      · simp [Shared.handed, hwaiting]
      · simp only [Point.place_asleep, Option.some.injEq, Place.cond.injEq] at hk
        rw [hk]
  case semWait k l =>
    have hcount : (s.shared.sems k).count = (w.machine.system.sems (B.sem k)).count :=
      congrArg (fun sh : Shared (Option Pid) V C M => (sh.sems k).count) hw.shared
    split at he
    · rename_i hn
      rw [← hcount] at hn
      exact hgoes _ rfl (by simp [hn]) rfl (by simp [hn]) (sleepEnding_some hx he)
    · cases he

/-- A process that wakes up on a condition variable, and finds the lock taken. -/
theorem Shows.resume_ends (hw : w.Shows B s) (h : w.Ok B) (hg : g.Reachable s)
    (hrests : w.machine.system.queue .runQueue = [x] → ∀ p', p' ≠ p → Rests g s p')
    (hp : w.pid p = some x) (hx : w.machine.system.current = some x) {h' : Halt}
    (he : w.machine.ending .resume = some h') :
    ∃ t, g.Step s p t ∧ g.Stuck t ∧ (t.pc p).place ≠ none ∧
      (∀ k, (t.pc p).place ≠ some (.cond k)) ∧ h' = sleepersWait := by
  have hpt := hw.points p
  simp only [Machine.ending, hx, Option.bind_some] at he
  rcases hstop : w.machine.system.stopped x with _ | ⟨c, stop⟩
  · rw [hstop] at he
    cases he
  rw [hstop, Option.bind_some] at he
  rw [hp, Option.bind_some, hstop] at hpt
  generalize hpc : s.pc p = pt at hpt
  cases hpt with
  | @asleep _ _ q l hq =>
    have hmem : p ∈ s.shared.queue q := by
      rw [hg.ok.mem_queue, hpc]
      rfl
    exact absurd hmem (hw.awake h hp hx)
  | @woken _ _ q l hq =>
    cases hq with
    | condWait k =>
      simp only [System.resumeEnding, h.created.conds k, h.created.lock, if_true] at he
      obtain ⟨hpoint, hlast, hh⟩ := hw.take_sleeps h hp hx he l
      refine ⟨s.after p (s.shared.take p l), ?_, stuck_after (hrests hlast) hpoint rfl, ?_, ?_, hh⟩
      · simp [Program.Step, Program.step, Program.effect, hpc, Point.wake]
      · rw [State.after_self]
        exact hpoint
      · rw [State.after_self]
        exact take_cond _ l
    | semWait k | lockAcquire | condAcquire k => cases he

/-- An entry that ends the simulation is the exit of the last process, or the
monitor comes to a state in which no process can run, because the process that
enters the kernel goes to sleep. -/
theorem Shows.ends (hw : w.Shows B s) (h : w.Ok B) (hg : g.Reachable s) (hl : w.Lives)
    (ha : w.Alone g) (hr : w.machine.Ready ent) (he : Enters g B w ent.event) {h' : Halt}
    (hend : w.machine.step ent = .error h') :
    ent.event = .exit ∧ g.Stuck s ∧ w.machine.system.exitEnding = some h' ∨
      ∃ p x t, w.machine.system.current = some x ∧ w.pid p = some x ∧ g.Step s p t ∧
        g.Stuck t ∧ (t.pc p).place ≠ none ∧ (∀ k, (t.pc p).place = some (.cond k) →
          ent.event = .call (.condWait (B.cond k).val)) ∧ h' = sleepersWait := by
  have hready := (h.reachable.good.ready ent).mp hr
  have hsame : w.machine.ending ent.event = some h' := by
    have hends := h.reachable.good.step_ends hr
    rcases ho : w.machine.ending ent.event with _ | h''
    · rw [ho] at hends
      obtain ⟨r, hok⟩ := hends
      cases hend.symm.trans hok
    · rw [ho] at hends
      rw [Except.error.inj (hend.symm.trans hends)]
  generalize ent.event = ev at hready he hsame
  cases he with
  | timer => cases hsame
  | resume =>
    obtain ⟨x, hx, _⟩ := hready
    obtain ⟨ps, hq⟩ := current_cons hx
    obtain ⟨p, hp⟩ := ha.bound x (.inl (by rw [← system_queue, hq]; exact List.mem_cons_self))
    obtain ⟨t, ht, hstuck, hplace, hcond, hh⟩ :=
      hw.resume_ends h hg (fun hlast _ => hw.rests h hg.ok hl ha hp hlast) hp hx hsame
    exact .inr ⟨p, x, t, hx, hp, ht, hstuck, hplace, fun k hk => absurd hk (hcond k), hh⟩
  | @call p x c l hx hp hop =>
    obtain ⟨y, hy, hf⟩ := hready
    obtain rfl := Option.some.inj (hx.symm.trans hy)
    obtain ⟨t, ht, hstuck, hplace, hcond, hh⟩ :=
      hw.call_ends h hg (fun hlast _ => hw.rests h hg.ok hl ha hp hlast) hp hx hf hop hsame
    exact .inr ⟨p, x, t, hx, hp, ht, hstuck, hplace, fun k hk => by rw [hcond k hk], hh⟩
  | @exit p x hx hp hop =>
    obtain ⟨y, hy, hf⟩ := hready
    obtain rfl := Option.some.inj (hx.symm.trans hy)
    refine .inl ⟨rfl, fun p' => Rests.step_none ?_, hsame⟩
    by_cases hpp : p' = p
    · subst hpp
      exact .inl ⟨_, hw.ready hp hf, hop⟩
    · refine hw.rests h hg.ok hl ha hp ?_ hpp
      obtain ⟨ps, hq⟩ := current_cons hx
      have hexit : w.machine.system.exitEnding = some h' := hsame
      unfold System.exitEnding at hexit
      rw [hq, List.tail_cons] at hexit
      split at hexit
      · rename_i hps
        rw [hq, hps]
      · cases hexit

omit [DecidableEq P] [DecidableEq C] [DecidableEq M] in
/-- Where all programs are at their end, nobody sleeps. -/
theorem Shows.exit_ends (hw : w.Shows B s) (h : w.Ok B) (hg : monitor.Ok g s) (ha : w.Alone g)
    (hfin : ∀ p, g.Finished s p) {h' : Halt}
    (hend : w.machine.system.exitEnding = some h') : h' = noRunnable := by
  have hwait : w.machine.system.queue .waitQueue = [] := by
    rw [List.eq_nil_iff_forall_not_mem]
    intro y hy
    obtain ⟨p, hp⟩ := ha.bound y (.inr hy)
    obtain ⟨q, l, hq⟩ := hw.asleep h hg hp hy
    obtain ⟨l', hl', _⟩ := hfin p
    cases hq.symm.trans hl'
  unfold System.exitEnding at hend
  rw [if_pos hwait] at hend
  split at hend
  · exact (Option.some.inj hend).symm
  · cases hend

/-- Where the monitor gets stuck in the end only, so does the kernel. -/
theorem Shows.finished (hstuck : ∀ s, g.Reachable s → g.Stuck s → ∀ p, g.Finished s p)
    (hw : w.Shows B s) (h : w.Ok B) (hg : g.Reachable s) (hl : w.Lives) (ha : w.Alone g)
    (hr : w.machine.Ready ent) (he : Enters g B w ent.event) {h' : Halt}
    (hend : w.machine.step ent = .error h') :
    ent.event = .exit ∧ h' = noRunnable ∧ ∀ p, g.Finished s p := by
  rcases hw.ends h hg hl ha hr he hend with
    ⟨hexit, hs, hsame⟩ | ⟨p, _, t, _, _, hstep, ht, hplace, _⟩
  · have hfin := hstuck s hg hs
    exact ⟨hexit, hw.exit_ends h hg.ok ha hfin hsame, hfin⟩
  · obtain ⟨l, hl', _⟩ := hstuck t (hg.step hstep) ht p
    rw [hl'] at hplace
    exact absurd rfl hplace

omit [DecidableEq P] [DecidableEq C] [DecidableEq M] in
/-- The exit of the last process, once all programs have come to their end. -/
theorem Ok.last_exit (h : w.Ok B) (hq : w.machine.queue .runQueue = [x])
    (hwait : w.machine.queue .waitQueue = []) (hst : w.machine.system.stopped x = none)
    (hp : w.pid p = some x) (hd : ∀ p, g.op p (w.loc p) = .done) :
    w.Alone g ∧ w.machine.Ready ⟨.exit, 0⟩ ∧ Enters g B w .exit ∧
      w.machine.step ⟨.exit, 0⟩ = .error noRunnable := by
  have hcur : w.machine.system.current = some x := current_eq hq
  have hready : w.machine.Ready ⟨.exit, 0⟩ := (h.reachable.good.ready _).mpr ⟨x, hcur, hst⟩
  refine ⟨⟨fun y hy => ⟨p, ?_⟩, fun p _ => hd p⟩, hready, .exit hcur hp (hd p), ?_⟩
  · rcases hy with hy | hy
    · rw [hq, List.mem_singleton] at hy
      rw [hy, hp]
    · rw [hwait] at hy
      cases hy
  · have hends := h.reachable.good.step_ends hready
    have hexit : w.machine.ending .exit = some noRunnable := by
      simp only [Machine.ending, System.exitEnding, system_queue, hq, hwait, List.tail_cons,
        if_true]
    rw [hexit] at hends
    exact hends

end World

/-! ## Processes that wait on a condition variable -/

variable {a b : System} {v : Int} {e : Event} {r : Return} {c : Call} {k : CondId}

/-- A process goes to sleep on a condition variable by a call of it. -/
theorem step_waits (hs : a.step v e = some (b, r))
    (h : b.stopped y = some (c, .condWait k)) : a.stopped y = some (c, .condWait k) ∨
      a.current = some y ∧ e = .call (.condWait k.val) := by
  cases System.steps hs with
  | timer | contextSwitch | exit | forkFails | fork => exact .inl h
  | @call p ps c' d res hq hc =>
    by_cases hy : y = p
    · subst hy
      refine .inr ⟨current_eq hq, ?_⟩
      replace h : res.stop c' = some (c, .condWait k) := by simpa [System.setStopped] using h
      cases hc with
      | condWait hk | condWaitUnlocked hk =>
        simp only [Result.stop, Option.some.injEq, Prod.mk.injEq, Stop.condWait.injEq] at h
        obtain ⟨_, rfl⟩ := h
        rw [slot?_eq_some.mp (cond?_some.mp hk).1]
      | lockAcquire _ hb => cases hb <;> simp [Result.stop] at h
      | _ => simp [Result.stop] at h
    · left
      rw [← (System.Keeps.calls hc).stopped]
      simpa [System.setStopped, hy] using h
  | @resume p ps c' stop d res hq hst hc =>
    by_cases hy : y = p
    · subst hy
      replace h : res.stop c' = some (c, .condWait k) := by simpa [System.setStopped] using h
      cases hc with
      | returns => simp [Result.stop] at h
      | acquires _ hb => cases hb <;> simp [Result.stop] at h
    · left
      rw [← (System.Keeps.resumes hc).stopped]
      simpa [System.setStopped, hy] using h

namespace World

/-- The process that runs the program calls `cond_wait`. -/
def CondWaits (B : Binding C M) (p : P) (k : C) (w : World P L V) (e : Event) : Prop :=
  e = .call (.condWait (B.cond k).val) ∧
    ∃ x, w.machine.system.current = some x ∧ w.pid p = some x

/-- In some step of the run. -/
def CondWaited (B : Binding C M) (p : P) (k : C)
    (tr : List (Move (World P L V) (Option Label))) : Prop :=
  ∃ mv ∈ tr, ∃ l, mv.label = some l ∧ CondWaits B p k mv.pre l.1.event

variable [DecidableEq P] {tr : List (Move (World P L V) (Option Label))}

omit [DecidableEq P] in
theorem CondWaited.append {k : C} {tr' : List (Move (World P L V) (Option Label))}
    (h : CondWaited B p k tr) : CondWaited B p k (tr ++ tr') := by
  obtain ⟨mv, hmv, hcall⟩ := h
  exact ⟨mv, List.mem_append_left _ hmv, hcall⟩

/-- The programs that sleep on a condition variable have called `cond_wait`. -/
structure Recorded (B : Binding C M) (tr : List (Move (World P L V) (Option Label)))
    (w : World P L V) : Prop where
  reachable : Reachable w.machine
  calls : ∀ p x c k, w.pid p = some x →
    w.machine.system.stopped x = some (c, .condWait (B.cond k)) → CondWaited B p k tr

omit [DecidableEq P] in
/-- An entry of the kernel after which the programs run by the same processes. -/
theorem Recorded.entry {ent : Entry} {m : Machine} (h : Recorded B tr w)
    (hs : w.machine.Step (ent, r) m) (hm : w'.machine = m)
    (hpid : ∀ p x, w'.pid p = some x → w.pid p = some x) :
    Recorded B (tr ++ [⟨w, some (ent, r), w'⟩]) w' := by
  subst hm
  refine ⟨h.reachable.step hs, fun p x c k hp hst => ?_⟩
  obtain ⟨⟨_, v, hv⟩, _⟩ := h.reachable.good.step hs
  rcases step_waits hv hst with hold | ⟨hx, he⟩
  · exact (h.calls p x c k (hpid p x hp) hold).append
  · exact ⟨_, List.mem_append_right _ List.mem_cons_self, _, rfl, he, x, hx, hpid p x hp⟩

theorem Recorded.step {l : Option Label} (h : Recorded B tr w) (hs : World.Step g B w l w') :
    Recorded B (tr ++ [⟨w, l, w'⟩]) w' := by
  cases hs with
  | kernel hs => exact h.entry hs rfl fun _ _ hp => hp
  | stranger hs => exact h.entry hs rfl fun _ _ hp => hp
  | call hs => exact h.entry hs rfl fun _ _ hp => hp
  | @exit p0 x0 _ _ _ hs =>
    refine h.entry hs rfl fun p x hp => ?_
    by_cases hpp : p = p0
    · subst hpp
      simp at hp
    · simpa [hpp] using hp
  | @start p0 x0 _ hf _ _ _ =>
    refine ⟨h.reachable, fun p x c k hp hst => ?_⟩
    by_cases hpp : p = p0
    · subst hpp
      obtain rfl : x0 = x := by simpa using hp
      cases hf.symm.trans hst
    · exact (h.calls p x c k (by simpa [hpp] using hp) hst).append
  | access =>
    exact ⟨h.reachable, fun p x c k hp hst => (h.calls p x c k hp hst).append⟩

theorem Starts.recorded (h0 : w.Starts g B) (hr : Run (World.Step g B) w tr w') :
    Recorded B tr w' := by
  refine hr.rule (I := fun tr w => Recorded B tr w) ⟨h0.reachable, fun p x c k hp => ?_⟩
    fun tr w l w' _ h hs => h.step hs
  rw [h0.pid] at hp
  cases hp

omit [DecidableEq P] in
/-- A process that sleeps is on the wait queue, and in the call in which it went
to sleep. -/
theorem Shows.waits (hw : w.Shows B s) (h : w.Ok B) (hg : monitor.Ok g s) {q : Place C M}
    {l : L p} (hpc : s.pc p = .asleep q l) : ∃ x c stop, w.pid p = some x ∧
      w.machine.system.stopped x = some (c, stop) ∧ B.StopsAt stop q ∧
      w.machine.system.queue .waitQueue ≠ [] := by
  have hpt := hw.points p
  generalize hy : (w.pid p).bind w.machine.system.stopped = o, hpc' : s.pc p = pt at hpt
  cases hpt with
  | ready => cases hpc.symm.trans hpc'
  | @woken _ _ q' _ _ =>
    have hwake := hpc.symm.trans hpc'
    cases q' <;> cases hwake
  | @asleep c stop q' _ hq =>
    obtain ⟨rfl, rfl⟩ := Point.asleep.inj (hpc.symm.trans hpc')
    obtain ⟨x, hp, hst⟩ := Option.bind_eq_some_iff.mp hy
    refine ⟨x, c, stop, hp, hst, hq, fun hnil => ?_⟩
    have hmem : x ∈ w.machine.system.queue (B.queue q) := by
      refine hw.mem_queue hp ((hg.mem_queue q p).mpr ?_)
      rw [hpc]
      rfl
    obtain ⟨home, waits, hsl⟩ := h.inv.sleepers
    have hwaits := (hsl.placed.mem_wait (Binding.queue_wait q) x).mp hmem
    have hin : x ∈ w.machine.system.queue .waitQueue := by
      rw [hsl.placed.mem_proc rfl x]
      exact (hsl.waiting x).mpr (by rw [hwaits]; simp)
    rw [hnil] at hin
    cases hin

/-- The process that runs the program is at its call of `cond_wait`. -/
def Waiting (g : Program P L V C M) (B : Binding C M) (p : P) (k : C) (w : World P L V) : Prop :=
  ∃ x l, w.pid p = some x ∧ w.machine.system.stopped x = none ∧
    B.call (g.op p (w.loc p)) = some (.condWait (B.cond k).val, l)

theorem Step.waiting {l : Label} {k : C} (hs : World.Step g B w (some l) w') (h : w.Ok B)
    (hc : CondWaits B p k w l.1.event) : Waiting g B p k w := by
  obtain ⟨hev, x, hx, hp⟩ := hc
  cases hs with
  | kernel hs he => rcases he with he | he <;> cases he.symm.trans hev
  | stranger hs hstr => exact absurd hp (hstr x hx p)
  | @call p' x' c l' ent r m hs hx' hp' hop he =>
    obtain rfl := Option.some.inj (hx.symm.trans hx')
    obtain rfl := h.inj p' p x hp' hp
    obtain rfl := Event.call.inj (he.symm.trans hev)
    have hready := (h.reachable.good.step hs).1.1
    dsimp only at hready
    rw [he] at hready
    obtain ⟨y, hy, hf⟩ := hready
    obtain rfl := Option.some.inj (hx.symm.trans hy)
    exact ⟨x, l', hp, hf, hop⟩
  | exit hs _ _ _ he => cases he.symm.trans hev

omit [DecidableEq P] in
theorem Enters.waiting {ent : Entry} {k : C} (he : Enters g B w ent.event) (h : w.Ok B)
    (hready : w.machine.Ready ent) (hc : CondWaits B p k w ent.event) : Waiting g B p k w := by
  obtain ⟨hev, x, hx, hp⟩ := hc
  replace hready := (h.reachable.good.ready ent).mp hready
  rw [hev] at he hready
  obtain ⟨y, hy, hf⟩ := hready
  obtain rfl := Option.some.inj (hx.symm.trans hy)
  cases he with
  | @call p' x' _ l hx' hp' hop =>
    obtain rfl := Option.some.inj (hx.symm.trans hx')
    obtain rfl := h.inj p' p x hp' hp
    exact ⟨x, l, hp, hf, hop⟩

theorem sleepers_exit {h : Halt} (hwait : a.queue .waitQueue ≠ [])
    (hend : a.exitEnding = some h) : h = sleepersWait := by
  unfold System.exitEnding at hend
  rw [if_neg hwait] at hend
  split at hend
  · exact (Option.some.inj hend).symm
  · cases hend

end World

end dlxos
