-- The kernel runs the programs as their monitor does. Each step of the machine
-- is one step of the monitor or none at all, so that what holds of the monitor
-- in all its runs holds of the kernel.
import DlxOs.MonitorRules
import DlxOs.Userland

namespace dlxos

open Function runs monitor

variable {P V C M : Type} {L : P → Type} {a b : System} {B : Binding C M} {x : Pid} {v : Int}
  {e : Event} {r : Return} {stop : Stop} {q : Place C M} {k : KQueue}

/-! ## Processes without a program -/

/-- The call of a process that sleeps has to do with the same objects until it
returns. -/
theorem grows_callTouches {c : Call} (hg : a.Grows b) (hm : a.Matches c stop) :
    b.callTouches c = a.callTouches c := by
  obtain ⟨hm', _⟩ := hg.matches hm
  unfold System.Matches at hm hm'
  split at hm
  · simp only [System.callTouches, hm, hm']
  · simp only [System.callTouches, hm, hm']
  · simp only [System.callTouches, hm, hm', hg.conds _ (cond?_some.mp hm).2]
  · simp only [System.callTouches, hm.1, hm'.1, hg.conds _ (cond?_some.mp hm.1).2]
  · cases hm

theorem calls_matches {c : Call} (hc : a.Calls x v c b (.sleeps stop)) : a.Matches c stop := by
  cases hc with
  | semSleeps hs => exact hs
  | lockAcquire hl hb =>
    obtain ⟨_, rfl⟩ := acquires_sleeps hb
    exact hl
  | condWait hk | condWaitUnlocked hk => exact hk

theorem resumes_matches {stop' : Stop} {c : Call} (hm : a.Matches c stop)
    (hc : a.Resumes x stop b (.sleeps stop')) : a.Matches c stop' := by
  cases hc with
  | acquires hi hb =>
    obtain ⟨_, rfl⟩ := acquires_sleeps hb
    cases c with
    | condWait n => exact ⟨hm, hi⟩
    | _ => cases hm

/-- A process that is stopped was so before, or it made its call just now. -/
theorem Inv.step_stops (h : Inv a) (hs : a.step v e = some (b, r)) {c : Call}
    (hstop : b.stopped x = some (c, stop)) :
    b.callTouches c = a.callTouches c ∧
      ((∃ stop', a.stopped x = some (c, stop')) ∨ a.current = some x ∧ e = .call c) := by
  have hgrows := h.grows hs
  have hsame : a.stopped x = some (c, stop) → b.callTouches c = a.callTouches c :=
    fun hx => grows_callTouches hgrows (h.matched hx)
  cases System.steps hs with
  | timer | contextSwitch | exit | forkFails | fork => exact ⟨hsame hstop, .inl ⟨_, hstop⟩⟩
  | @call p ps c' d res hq hc =>
    by_cases hx : x = p
    · subst hx
      rw [System.setStopped_stopped, update_self] at hstop
      cases res with
      | returns n => cases hstop
      | sleeps stop' =>
        obtain ⟨rfl, rfl⟩ := Prod.mk.inj (Option.some.inj hstop)
        exact ⟨grows_callTouches hgrows (calls_matches hc), .inr ⟨current_eq hq, rfl⟩⟩
    · rw [System.setStopped_stopped, update_of_ne hx, (System.Keeps.calls hc).stopped] at hstop
      exact ⟨hsame hstop, .inl ⟨_, hstop⟩⟩
  | @resume p ps c' stop' d res hq hs' hc =>
    by_cases hx : x = p
    · subst hx
      rw [System.setStopped_stopped, update_self] at hstop
      cases res with
      | returns n => cases hstop
      | sleeps stop'' =>
        obtain ⟨rfl, rfl⟩ := Prod.mk.inj (Option.some.inj hstop)
        have hm := resumes_matches (h.matched hs') hc
        exact ⟨grows_callTouches hgrows hm, .inl ⟨_, hs'⟩⟩
    · rw [System.setStopped_stopped, update_of_ne hx, (System.Keeps.resumes hc).stopped] at hstop
      exact ⟨hsame hstop, .inl ⟨_, hstop⟩⟩

/-- Only calls stop, and only the end of a sleep lets a call go on. -/
theorem step_keeps_stops (hs : a.step v e = some (b, r)) (hr : e ≠ .resume)
    (hc : ∀ c, e ≠ .call c) : b.stopped = a.stopped := by
  cases System.steps hs with
  | timer | contextSwitch | exit | forkFails | fork => rfl
  | call => exact absurd rfl (hc _)
  | resume => exact absurd rfl hr

/-! ## What the kernel shows of the programs -/

namespace Binding

/-- The point at which a process stands, by the call in which it stopped. One
that was woken has yet to come back from its call. -/
inductive Stands (B : Binding C M) {X : Type} : Option (Call × Stop) → Point X C M → Prop where
  | ready {l : X} : Stands B none (.ready l)
  | asleep {c : Call} {stop : Stop} {q : Place C M} {l : X} (hq : B.StopsAt stop q) :
    Stands B (some (c, stop)) (.asleep q l)
  | woken {c : Call} {stop : Stop} {q : Place C M} {l : X} (hq : B.StopsAt stop q) :
    Stands B (some (c, stop)) (.wake (.asleep q l))

variable {X : Type} {y : Option (Call × Stop)} {pt : Point X C M}

theorem Stands.wake (h : B.Stands y pt) : B.Stands y pt.wake := by
  cases h with
  | ready => exact .ready
  | asleep hq => exact .woken hq
  | @woken c stop q l hq =>
    have hw : ((Point.asleep q l : Point X C M).wake).wake = (Point.asleep q l).wake := by
      cases q <;> rfl
    rw [hw]
    exact .woken hq

theorem Stands.of_none (h : B.Stands none pt) : pt = .ready pt.loc := by
  cases h with
  | ready => rfl

theorem Comes.stands {c : Call} {res : Result} {l : X} (h : B.Comes l res pt) :
    B.Stands (res.stop c) pt ∧ pt.loc = l := by
  cases h with
  | returns => exact ⟨.ready, rfl⟩
  | sleeps hw => exact ⟨.asleep hw, rfl⟩

/-- A call of a program was done when it returns. -/
theorem Comes.value {c : Call} {res : Result} {l : X} (h : B.Comes l res pt) :
    res.value c = none ∨ res.value c = some (c, SYNC_SUCCESS) := by
  cases h with
  | returns => exact .inr rfl
  | sleeps => exact .inl rfl

end Binding

namespace World

/-- The objects of the program are in order, and each process runs one program
at most. -/
structure Ok (B : Binding C M) (w : World P L V) : Prop where
  reachable : Reachable w.machine
  created : B.Created w.machine.system
  inj : ∀ p p' x, w.pid p = some x → w.pid p' = some x → p = p'
  apart : ∀ x c stop, w.Stranger x → w.machine.system.stopped x = some (c, stop) →
    ∀ q, B.queue q ∉ w.machine.system.callTouches c

/-- A state of the monitor, as the kernel shows it. -/
structure Shows (B : Binding C M) (w : World P L V) (s : State P L V C M) : Prop where
  locs : s.locs = w.loc
  shared : s.shared.map w.pid = (B.shared w.machine.system w.mem).map some
  points : ∀ p, B.Stands ((w.pid p).bind w.machine.system.stopped) (s.pc p)

section

variable {w : World P L V} {s : State P L V C M} {m : Machine} {ent : Entry} {p : P}

theorem Ok.inv (h : w.Ok B) : Inv w.machine.system := h.reachable.good.inv

/-- No other program is run by the same process. -/
theorem Ok.only (h : w.Ok B) (hp : w.pid p = some x) (p' : P) (he : w.pid p' = w.pid p) :
    p' = p :=
  h.inj p' p x (he.trans hp) hp

/-- The objects of the program stay in order, where the processes without a
program stay away from them. -/
theorem Ok.next (h : w.Ok B) (hs : w.machine.Step (ent, r) m)
    (hcall : ∀ x c, w.machine.system.current = some x → w.Stranger x → ent.event = .call c →
      ∀ q, B.queue q ∉ w.machine.system.callTouches c) : Ok B { w with machine := m } := by
  obtain ⟨_, v, hv⟩ := (h.reachable.good.step hs).1
  refine ⟨h.reachable.step hs, h.created.grows (h.inv.grows hv), h.inj, fun x c stop hx hstop => ?_⟩
  obtain ⟨ht, ⟨stop', hbefore⟩ | ⟨hcur, he⟩⟩ := h.inv.step_stops hv hstop
  · intro q
    rw [ht]
    exact h.apart x c stop' hx hbefore q
  · intro q
    rw [ht]
    exact hcall x c hcur hx he q

/-- Where a step touches no object of the program, it changes nothing that the
processes share. -/
theorem Ok.shared_eq (h : w.Ok B) (hs : w.machine.Step (ent, r) m)
    (ht : ∀ q, B.queue q ∉ w.machine.system.touches ent.event) (mem : V) :
    B.shared m.system mem = B.shared w.machine.system mem := by
  obtain ⟨_, v, hv⟩ := (h.reachable.good.step hs).1
  exact Binding.shared_same (fun q => System.Same.step hv (ht q)) mem

/-- Only the process that runs stops elsewhere. -/
theorem Ok.stopped_eq (h : w.Ok B) (hs : w.machine.Step (ent, r) m)
    (hx : w.machine.system.current ≠ some x) :
    m.system.stopped x = w.machine.system.stopped x := by
  obtain ⟨_, v, hv⟩ := (h.reachable.good.step hs).1
  exact (step_stopped hv x).resolve_right fun hcur => hx hcur.1

/-- The kernel goes on, and the programs do not. -/
theorem Shows.frame (hw : w.Shows B s)
    (hshared : B.shared m.system w.mem = B.shared w.machine.system w.mem)
    (hstopped : ∀ p x, w.pid p = some x → B.Stands (w.machine.system.stopped x) (s.pc p) →
      B.Stands (m.system.stopped x) (s.pc p)) : Shows B { w with machine := m } s := by
  refine ⟨hw.locs, hw.shared.trans (by rw [hshared]), fun p => ?_⟩
  have hp := hw.points p
  rcases hpid : w.pid p with _ | x
  · rw [hpid] at hp
    exact hp
  · rw [hpid] at hp
    exact hstopped p x hpid hp

/-- The queues of the kernel hold the processes of the programs that sleep. -/
theorem Shows.mem_queue (hw : w.Shows B s) (hp : w.pid p = some x)
    (h : p ∈ s.shared.queue q) : x ∈ w.machine.system.queue (B.queue q) := by
  have hmap : (s.shared.queue q).map w.pid = (w.machine.system.queue (B.queue q)).map some := by
    rw [← Shared.queue_map, hw.shared, Shared.queue_map, Binding.shared_queue]
  have hmem : some x ∈ (s.shared.queue q).map w.pid := List.mem_map.mpr ⟨p, h, hp⟩
  rw [hmap] at hmem
  obtain ⟨y, hy, he⟩ := List.mem_map.mp hmem
  cases he
  exact hy

/-- The lock of the kernel has the PID of the process that owns it. -/
theorem Shows.owner (hw : w.Shows B s) (h : w.Ok B) (hp : w.pid p = some x) :
    (w.machine.system.lockView B.lock).owner = some x ↔ s.shared.lock.owner = some p := by
  have hmap : (s.shared.lock.map w.pid).owner =
      ((w.machine.system.lockView B.lock).map some).owner :=
    congrArg (fun sh : Shared (Option Pid) V C M => sh.lock.owner) hw.shared
  rw [← Shared.owner_map (h.only hp) s.shared.lock, hmap, hp]
  simp

/-- While the lock is free, no process is inside of its section. -/
theorem Shows.outside {g : Program P L V C M} (hw : w.Shows B s) (hg : monitor.Ok g s)
    (hfree : (w.machine.system.locks B.lock).pid = -1) {l : L p} (hpc : s.pc p = .ready l) :
    g.inside p l = false := by
  rw [← Bool.not_eq_true]
  intro hin
  have hown := (hg.owner p).mpr ⟨l, hpc, hin⟩
  have hnone : (w.machine.system.lockView B.lock).owner = none := by
    rw [System.lockView, hfree, slot?_neg (by decide)]
  have hmap : (s.shared.lock.map w.pid).owner =
      ((w.machine.system.lockView B.lock).map some).owner :=
    congrArg (fun sh : Shared (Option Pid) V C M => sh.lock.owner) hw.shared
  simp [hown, hnone] at hmap

/-- The process that runs is not on the queues of the program. -/
theorem Shows.awake (hw : w.Shows B s) (h : w.Ok B) (hp : w.pid p = some x)
    (hx : w.machine.system.current = some x) : p ∉ s.shared.queue q :=
  fun hq => h.inv.waits_none hx (Binding.queue_wait q) (hw.mem_queue hp hq)

/-- The process that runs is ready, if it has not stopped. -/
theorem Shows.ready (hw : w.Shows B s) (hp : w.pid p = some x)
    (hf : w.machine.system.stopped x = none) : s.pc p = .ready (w.loc p) := by
  have hpt := hw.points p
  rw [hp, Option.bind_some, hf] at hpt
  rw [← hw.locs]
  exact hpt.of_none

theorem Shows.ready' (hw : w.Shows B s) (hp : w.pid p = none) : s.pc p = .ready (w.loc p) := by
  have hpt := hw.points p
  rw [hp, Option.bind_none] at hpt
  rw [← hw.locs]
  exact hpt.of_none

/-- A step that the programs do not notice. -/
theorem Shows.quiet (hw : w.Shows B s) (h : w.Ok B) (hs : w.machine.Step (ent, r) m)
    (ht : ∀ q, B.queue q ∉ w.machine.system.touches ent.event)
    (hstopped : ∀ p x, w.machine.system.current = some x → w.pid p = some x →
      m.system.stopped x = w.machine.system.stopped x) : Shows B { w with machine := m } s := by
  refine hw.frame (h.shared_eq hs ht w.mem) fun p x hp hst => ?_
  by_cases hx : w.machine.system.current = some x
  · rw [hstopped p x hx hp]
    exact hst
  · rw [h.stopped_eq hs hx]
    exact hst

/-- A process comes back from its call. -/
theorem Shows.returns (hw : w.Shows B s) (h : w.Ok B) (hp : w.pid p = some x)
    (hpc : s.pc p = .ready (w.loc p)) (hd : m.system = w.machine.system.setStopped x none) :
    Shows B { w with machine := m } s := by
  refine hw.frame (by rw [hd, Binding.shared_setStopped]) fun p' y hp' hst => ?_
  by_cases hy : y = x
  · subst hy
    obtain rfl := h.inj p p' y hp hp'
    rw [hd, System.setStopped_stopped, update_self, hpc]
    exact .ready
  · rw [hd, System.setStopped_stopped, update_of_ne hy]
    exact hst

variable [DecidableEq P]

/-- A process of the programs has gone on. -/
theorem Shows.after (hw : w.Shows B s) (h : w.Ok B) (hp : w.pid p = some x)
    {e : Effect (L p) P V C M} {l : L p} {mem : V}
    (hshared : e.shared.map w.pid = (B.shared m.system mem).map some)
    (hpoint : B.Stands (m.system.stopped x) e.point) (hl : e.point.loc = l)
    (hother : ∀ y, y ≠ x → m.system.stopped y = w.machine.system.stopped y) :
    Shows B ⟨m, w.pid, update w.loc p l, mem⟩ (s.after p e) := by
  refine ⟨?_, hshared, fun p' => ?_⟩
  · rw [locs_after, hw.locs, hl]
  · by_cases hp' : p' = p
    · subst hp'
      rw [State.after_self, hp]
      exact hpoint
    · have hpt : B.Stands ((w.pid p').bind m.system.stopped) (s.pc p') := by
        have hold := hw.points p'
        rcases hpid : w.pid p' with _ | y
        · rw [hpid] at hold
          exact hold
        · have hy : y ≠ x := by
            rintro rfl
            exact hp' (h.inj p' p y hpid hp)
          rw [hpid] at hold
          simpa [hother y hy] using hold
      rw [s.after_of_ne e hp']
      split
      · exact hpt.wake
      · exact hpt

variable [DecidableEq C] [DecidableEq M]

/-- What an operation does in the kernel, it does in the monitor. -/
theorem Shows.effect (hw : w.Shows B s) (h : w.Ok B) (hp : w.pid p = some x)
    {o : Op (L p) V C M} {e : Effect (L p) Pid V C M}
    (he : (B.shared w.machine.system w.mem).effect x o = some e) :
    ∃ e', s.shared.effect p o = some e' ∧ e'.map w.pid = e.map some := by
  have hkernel := Shared.effect_map (f := some) (p := x) (fun _ => Option.some.inj)
    (B.shared w.machine.system w.mem) o
  have hmonitor := Shared.effect_map (f := w.pid) (p := p) (h.only hp) s.shared o
  rw [hw.shared, hp, hkernel, he] at hmonitor
  exact Option.map_eq_some_iff.mp hmonitor.symm

/-! ### One step -/

variable {g : Program P L V C M}

/-- A process comes back from a wait on a condition variable, and asks for the
lock again. -/
theorem Shows.again (hw : w.Shows B s) (h : w.Ok B) (hp : w.pid p = some x) {c : Call} {k : C}
    {l : L p} (hpc : s.pc p = .woken l) {d : System} {res : Result}
    (hc : w.machine.system.Resumes x (.condWait (B.cond k)) d res)
    (hd : m.system = d.setStopped x (res.stop c)) :
    ∃ t, g.Step s p t ∧ Shows B { w with machine := m } t := by
  have hcond := h.created.conds k
  obtain rfl : w.loc p = l := by
    rw [← hw.locs, State.locs, hpc]
    rfl
  cases hc with
  | returns hu =>
    have hfree := hu _ rfl
    rw [hcond, h.created.lock] at hfree
    cases hfree
  | acquires hi hb =>
    rw [hcond] at hb
    obtain ⟨hshared, hcomes⟩ := Binding.acquires (h.inv.locks _ h.created.lock).pid
      (.condAcquire k) hb w.mem (w.loc p)
    refine ⟨s.after p (s.shared.take p (w.loc p)), ?_, ?_⟩
    · simp [Program.Step, Program.step, Program.effect, hpc]
    · have htake := Shared.take_map (f := w.pid) (p := p) (h.only hp) s.shared (w.loc p)
      rw [hw.shared, hp, Shared.take_map (f := some) (fun _ => Option.some.inj)] at htake
      have hpoint : (s.shared.take p (w.loc p)).point =
          ((B.shared w.machine.system w.mem).take x (w.loc p)).point :=
        (congrArg Effect.point htake).symm
      rw [← hpoint] at hcomes
      obtain ⟨hstands, hl⟩ := hcomes.stands (c := c)
      have hafter : Shows B ⟨m, w.pid, update w.loc p (w.loc p), w.mem⟩
          (s.after p (s.shared.take p (w.loc p))) := hw.after h hp ?_ ?_ hl ?_
      · rw [update_eq_self] at hafter
        exact hafter
      · rw [hd, Binding.shared_setStopped, hshared]
        exact (congrArg Effect.shared htake).symm
      · rw [hd, System.setStopped_stopped, update_self]
        exact hstands
      · intro y hy
        rw [hd, System.setStopped_stopped, update_of_ne hy, (System.Keeps.acquires hb).stopped]

/-- A process goes on after a sleep. -/
theorem Shows.resume (hw : w.Shows B s) (h : w.Ok B) (hg : g.Reachable s)
    (hs : w.machine.Step (ent, r) m) (he : ent.event = .resume) :
    Shows B { w with machine := m } s ∨
      ∃ p t, g.Step s p t ∧ Shows B { w with machine := m } t := by
  obtain ⟨_, v, hv⟩ := (h.reachable.good.step hs).1
  simp only [he] at hv
  obtain ⟨x, c, stop, d, res, hres, hc, hd, _⟩ := step_resume hv
  obtain ⟨hx, hstop⟩ := resuming_some.mp hres
  by_cases hstr : w.Stranger x
  · refine .inl (hw.quiet h hs (fun q hq => ?_) fun p y hy hp => ?_)
    · have hapart := h.apart x c stop hstr hstop q
      rw [he] at hq
      simp only [System.touches, hres] at hq
      split at hq
      · rename_i hstop'
        obtain ⟨rfl, rfl, rfl⟩ : _ ∧ _ ∧ stop = _ := by simpa using hstop'
        have hm := h.inv.matched hstop
        cases c with
        | condWait n =>
          have hk : w.machine.system.cond? n = some _ := hm
          simp only [System.callTouches, hk] at hapart
          exact hapart (List.mem_cons_of_mem _ hq)
        | _ => cases hm
      · cases hq
    · obtain rfl := Option.some.inj (hx.symm.trans hy)
      exact absurd hp (hstr p)
  · obtain ⟨p, hp⟩ := not_forall_not.mp hstr
    have hpt := hw.points p
    rw [hp, Option.bind_some, hstop] at hpt
    generalize hpc : s.pc p = pt at hpt
    cases hpt with
    | @asleep _ _ q l hq =>
      have hmem : p ∈ s.shared.queue q := by
        rw [hg.ok.mem_queue, hpc]
        rfl
      exact absurd hmem (hw.awake h hp hx)
    | @woken _ _ q l hq =>
      have hloc : w.loc p = l := by
        rw [← hw.locs, State.locs, hpc, Point.loc_wake]
        rfl
      cases hq with
      | condWait k => exact .inr ⟨p, hw.again h hp hpc hc hd⟩
      | semWait k | lockAcquire | condAcquire k =>
        cases hc with
        | returns => exact .inl (hw.returns h hp (by rw [hpc, hloc]; rfl) hd)

/-- A process makes a call of its program. Where the call returns, it was done. -/
theorem Shows.call (hb : Bounded g) (hw : w.Shows B s) (h : w.Ok B) (hg : g.Reachable s)
    (hs : w.machine.Step (ent, r) m) (hx : w.machine.system.current = some x)
    (hp : w.pid p = some x) {c : Call} {l : L p}
    (hop : B.call (g.op p (w.loc p)) = some (c, l)) (he : ent.event = .call c) :
    (r = none ∨ r = some (c, SYNC_SUCCESS)) ∧
      ∃ t, g.Step s p t ∧ Shows B { w with machine := m, loc := update w.loc p l } t := by
  obtain ⟨hready, v, hv⟩ := (h.reachable.good.step hs).1
  simp only [he] at hv hready
  obtain ⟨y, d, res, hy, hc, hd, hr⟩ := step_call hv
  obtain rfl := Option.some.inj (hx.symm.trans hy)
  obtain ⟨y, hy', hf⟩ := hready
  obtain rfl := Option.some.inj (hx.symm.trans hy')
  have hpc := hw.ready hp hf
  -- the lock, as the program sees it
  have hown : g.inside p (w.loc p) = true →
      (w.machine.system.lockView B.lock).owner = some x := fun hin =>
    (hw.owner h hp).mpr ((hg.ok.owner p).mpr ⟨_, hpc, hin⟩)
  have hmax : ∀ k, (w.machine.system.sems (B.sem k)).count + 1 < 2 ^ 31 := by
    intro k
    have hcount : (s.shared.sems k).count = (w.machine.system.sems (B.sem k)).count :=
      congrArg (fun sh : Shared (Option Pid) V C M => (sh.sems k).count) hw.shared
    rw [← hcount]
    exact hb s hg k
  obtain ⟨e, heff, hshared, hcomes⟩ := h.created.calls h.inv (g.obeys p (w.loc p)) hown hmax hop
    hc w.mem
  obtain ⟨e', heff', hmap⟩ := hw.effect h hp heff
  have hpoint : e'.point = e.point := congrArg Effect.point hmap
  rw [← hpoint] at hcomes
  obtain ⟨hstands, hl⟩ := hcomes.stands (c := c)
  refine ⟨?_, s.after p e', ?_, hw.after h hp ?_ ?_ hl ?_⟩
  · rw [hr]
    exact hcomes.value
  · simp [Program.Step, Program.step, Program.effect, hpc, heff']
  · rw [hd, Binding.shared_setStopped, hshared]
    exact congrArg Effect.shared hmap
  · rw [hd, System.setStopped_stopped, update_self]
    exact hstands
  · intro z hz
    rw [hd, System.setStopped_stopped, update_of_ne hz, (System.Keeps.calls hc).stopped]

theorem Shows.exit (hw : w.Shows B s) (h : w.Ok B) (hg : g.Reachable s)
    (hs : w.machine.Step (ent, r) m) (hx : w.machine.system.current = some x)
    (hp : w.pid p = some x) (hop : g.op p (w.loc p) = .done) (he : ent.event = .exit) :
    Ok B { w with machine := m, pid := update w.pid p none } ∧
      Shows B { w with machine := m, pid := update w.pid p none } s := by
  obtain ⟨hready, v, hv⟩ := (h.reachable.good.step hs).1
  simp only [he] at hv hready
  obtain ⟨y, hy, hf⟩ := hready
  obtain rfl := Option.some.inj (hx.symm.trans hy)
  have hkeep := step_keeps_stops hv (by simp) (by simp)
  have hnext := h.next hs fun _ c _ _ hcall => by rw [he] at hcall; cases hcall
  have hpc := hw.ready hp hf
  have hin : g.inside p (w.loc p) = false := by
    have hobeys := g.obeys p (w.loc p)
    rw [hop] at hobeys
    exact hobeys
  constructor
  · refine ⟨hnext.reachable, hnext.created, fun p1 p2 z h1 h2 => ?_, fun z c stop hz hstop => ?_⟩
    · by_cases hp1 : p1 = p
      · subst hp1
        simp at h1
      · by_cases hp2 : p2 = p
        · subst hp2
          simp at h2
        · exact h.inj p1 p2 z (by simpa [hp1] using h1) (by simpa [hp2] using h2)
    · by_cases hzx : z = x
      · subst hzx
        rw [hkeep, hf] at hstop
        cases hstop
      · refine hnext.apart z c stop (fun p' hp' => ?_) hstop
        by_cases hpp : p' = p
        · subst hpp
          exact hzx (Option.some.inj (hp'.symm.trans hp))
        · exact hz p' (by simpa [hpp] using hp')
  · have hframe := hw.quiet h hs (fun q hq => ?_) fun _ _ _ _ => congrFun hkeep _
    · refine ⟨hw.locs, ?_, fun p' => ?_⟩
      · exact (hg.ok.map_update hpc hin w.pid none).trans hframe.shared
      · by_cases hpp : p' = p
        · subst hpp
          simp only [update_self, Option.bind_none, hpc]
          exact .ready
        · have := hframe.points p'
          simpa [hpp] using this
    · rw [he] at hq
      have := List.mem_singleton.mp hq
      cases q <;> cases this

theorem Shows.start (hw : w.Shows B s) (h : w.Ok B) (hg : g.Reachable s)
    (hf : w.machine.system.stopped x = none) (hx : w.Stranger x) (hp : w.pid p = none)
    (hl : w.loc p = g.start p) :
    Ok B { w with pid := update w.pid p (some x) } ∧
      Shows B { w with pid := update w.pid p (some x) } s := by
  have hpc := hw.ready' hp
  have hin : g.inside p (w.loc p) = false := by
    rw [hl]
    exact g.outside p
  constructor
  · refine ⟨h.reachable, h.created, fun p1 p2 z h1 h2 => ?_, fun z c stop hz hstop => ?_⟩
    · by_cases hp1 : p1 = p <;> by_cases hp2 : p2 = p
      · rw [hp1, hp2]
      · subst hp1
        simp only [update_self, update_of_ne hp2] at h1 h2
        exact absurd (h2.trans h1.symm) (hx p2)
      · subst hp2
        simp only [update_self, update_of_ne hp1] at h1 h2
        exact absurd (h1.trans h2.symm) (hx p1)
      · exact h.inj p1 p2 z (by simpa [hp1] using h1) (by simpa [hp2] using h2)
    · refine h.apart z c stop (fun p' hp' => ?_) hstop
      have hne : p' ≠ p := by
        rintro rfl
        rw [hp] at hp'
        cases hp'
      exact hz p' (by simpa [hne] using hp')
  · refine ⟨hw.locs, (hg.ok.map_update hpc hin w.pid (some x)).trans hw.shared, fun p' => ?_⟩
    by_cases hpp : p' = p
    · subst hpp
      simp only [update_self, Option.bind_some, hf, hpc]
      exact .ready
    · simpa [hpp] using hw.points p'

theorem Shows.access (hw : w.Shows B s) (h : w.Ok B)
    (hf : w.machine.system.stopped x = none) (hp : w.pid p = some x) {f : V → V × L p}
    (hop : g.op p (w.loc p) = .access f) :
    Ok B { w with mem := (f w.mem).1, loc := update w.loc p (f w.mem).2 } ∧ ∃ t, g.Step s p t ∧
      Shows B { w with mem := (f w.mem).1, loc := update w.loc p (f w.mem).2 } t := by
  have hpc := hw.ready hp hf
  have hmem : s.shared.mem = w.mem := congrArg Shared.mem hw.shared
  refine ⟨⟨h.reachable, h.created, h.inj, h.apart⟩,
    s.after p ⟨.ready (f w.mem).2, { s.shared with mem := (f w.mem).1 }, none⟩, ?_, ?_⟩
  · simp [Program.Step, Program.step, Program.effect, hpc, hop, Shared.effect, hmem]
  · refine hw.after h hp ?_ ?_ rfl fun _ _ => rfl
    · have hshared := congrArg (fun sh : Shared (Option Pid) V C M =>
        ({ sh with mem := (f w.mem).1 } : Shared (Option Pid) V C M)) hw.shared
      exact hshared
    · rw [hf]
      exact .ready

/-- Each step of the world is one step of the monitor, or none. -/
theorem Shows.step (hb : Bounded g) (hw : w.Shows B s) (h : w.Ok B) (hg : g.Reachable s)
    {w' : World P L V} {l : Option Label} (hs : World.Step g B w l w') :
    w'.Ok B ∧ (w'.Shows B s ∨ ∃ p t, g.Step s p t ∧ w'.Shows B t) := by
  cases hs with
  | @kernel ent r m hs he =>
    have hnext := h.next hs fun _ c _ _ hcall => by
      rcases he with he | he <;> rw [he] at hcall <;> cases hcall
    rcases he with he | he
    · obtain ⟨_, v, hv⟩ := (h.reachable.good.step hs).1
      simp only [he] at hv
      have hkeep := step_keeps_stops hv (by simp) (by simp)
      refine ⟨hnext, .inl (hw.quiet h hs (fun q hq => ?_) fun _ _ _ _ => congrFun hkeep _)⟩
      rw [he] at hq
      cases hq
    · exact ⟨hnext, hw.resume h hg hs he⟩
  | @stranger ent r m hs hx ht =>
    refine ⟨h.next hs fun _ c _ _ hcall => ht c hcall, ?_⟩
    by_cases he : ent.event = .resume
    · exact hw.resume h hg hs he
    · refine .inl (hw.quiet h hs (fun q hq => ?_) fun p x hcur hp => absurd hp (hx x hcur p))
      generalize hev : ent.event = ev at he hq ht
      cases ev with
      | call c => exact ht c rfl q hq
      | resume => exact he rfl
      | timer | contextSwitch => cases hq
      | exit | fork =>
        have := List.mem_singleton.mp hq
        cases q <;> cases this
  | call hs hx hp hop he =>
    obtain ⟨_, t, ht, hw'⟩ := hw.call hb h hg hs hx hp hop he
    have hnext := h.next hs fun y c hy hstr _ => by
      obtain rfl := Option.some.inj (hx.symm.trans hy)
      exact absurd hp (hstr _)
    exact ⟨⟨hnext.reachable, hnext.created, hnext.inj, hnext.apart⟩, .inr ⟨_, t, ht, hw'⟩⟩
  | exit hs hx hp hop he =>
    obtain ⟨hok, hw'⟩ := hw.exit h hg hs hx hp hop he
    exact ⟨hok, .inl hw'⟩
  | start hx hf hstr hp hl =>
    obtain ⟨hok, hw'⟩ := hw.start h hg hf hstr hp hl
    exact ⟨hok, .inl hw'⟩
  | access hx hf hp hop =>
    obtain ⟨hok, t, ht, hw'⟩ := hw.access h hf hp hop
    exact ⟨hok, .inr ⟨_, t, ht, hw'⟩⟩

/-! ### Runs -/

omit [DecidableEq P] [DecidableEq C] [DecidableEq M] in
theorem Starts.ok (h : w.Starts g B) : w.Ok B := by
  refine ⟨h.reachable, h.created, fun p p' x hp _ => ?_, fun x c stop _ hstop =>
    h.unused x c stop hstop⟩
  rw [h.pid] at hp
  cases hp

omit [DecidableEq P] [DecidableEq C] [DecidableEq M] in
theorem Starts.shows (h : w.Starts g B) : w.Shows B g.init := by
  have hlock : w.machine.system.lockView B.lock = ⟨none, []⟩ := by
    have hempty := h.empty .lock
    simp only [System.lockView, h.free, slot?_neg (show (-1 : Int) < 0 by decide),
      fifo.Lock.mk.injEq, true_and]
    exact hempty
  have hsems : ∀ k, w.machine.system.semView (B.sem k) = ⟨g.count k, []⟩ := by
    intro k
    have hempty := h.empty (.sem k)
    simp only [System.semView, h.counts, fifo.Sem.mk.injEq, true_and]
    exact hempty
  have hshared : B.shared w.machine.system w.mem = ⟨g.mem, ⟨none, []⟩, fun _ => [], fun k =>
      ⟨g.count k, []⟩⟩ :=
    Binding.shared_eq h.mem.symm hlock (fun k => h.empty (.cond k)) hsems
  refine ⟨h.loc.symm, ?_, fun p => ?_⟩
  · rw [hshared]
    rfl
  · rw [h.pid]
    exact .ready

/-- Every run of the machine is shown by a run of the monitor. -/
theorem Starts.run (hb : Bounded g) (h0 : w.Starts g B)
    {tr : List (Move (World P L V) (Option Label))} {w' : World P L V}
    (hr : Run (World.Step g B) w tr w') : w'.Ok B ∧ ∃ s, g.Reachable s ∧ w'.Shows B s := by
  refine hr.invariant (I := fun w => w.Ok B ∧ ∃ s, g.Reachable s ∧ w.Shows B s)
    (fun w _ w' hI hs => ?_) ⟨h0.ok, g.init, .init, h0.shows⟩
  obtain ⟨h, s, hg, hw⟩ := hI
  obtain ⟨h', hw' | ⟨p, t, ht, hw'⟩⟩ := hw.step hb h hg hs
  · exact ⟨h', s, hg, hw'⟩
  · exact ⟨h', t, hg.step ht, hw'⟩

end

end World

end dlxos
