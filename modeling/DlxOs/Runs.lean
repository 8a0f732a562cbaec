-- The runs of the machine. A run of the machine is a run of the system that
-- it shows, so a law of the runs of the system holds of the machine. The run
-- queue has a law of its own: the processes on it keep their order.
import DlxOs.Refinement
import DlxOs.Fifo

namespace dlxos

open Function runs

/-- An entry of the kernel, with the call that returned in it. -/
abbrev Label := Entry × Return

/-- The machine enters the kernel, and the simulation goes on. -/
def Machine.Step (m : Machine) (l : Label) (m' : Machine) : Prop :=
  m.Ready l.1 ∧ m.step l.1 = .ok (m', l.2)

/-- A state of some run from the start. -/
def Reachable (m : Machine) : Prop :=
  ∃ b m0 tr, boot b = .ok m0 ∧ Run Machine.Step m0 tr m

/-- The processes on a queue, read as the kernel reads it, from its first link
on. -/
def Machine.queue (m : Machine) (q : KQueue) : List Pid := m.kernel.qs.store.objects (.client q)

def System.Step (a : System) (l : Event × Return) (b : System) : Prop :=
  a.Ready l.1 ∧ ∃ v, a.step v l.1 = some (b, l.2)

variable {m m' : Machine} {l : Label} {a b : System} {p : Pid} {v : Int} {e : Event} {r : Return}
  {tr : List (Move Machine Label)}

@[simp] theorem system_queue (m : Machine) (q : KQueue) : m.system.queue q = m.queue q := rfl
@[simp] theorem system_sems (m : Machine) : m.system.sems = m.kernel.sems := rfl
@[simp] theorem system_locks (m : Machine) : m.system.locks = m.kernel.locks := rfl
@[simp] theorem system_conds (m : Machine) : m.system.conds = m.kernel.conds := rfl

/-! ## The machine and the system -/

theorem Good.step (h : Good m) (hs : m.Step l m') :
    m.system.Step (l.1.event, l.2) m'.system ∧ Follows m l.1 m'.system l.2 m' := by
  obtain ⟨v, hv, hf⟩ := Machine.step_follows h hs.1 hs.2
  exact ⟨⟨(h.ready l.1).mp hs.1, v, hv⟩, hf⟩

theorem Good.run (h : Good m) (hr : Run Machine.Step m tr m') : Good m' :=
  hr.invariant (fun _ _ _ hg hs => (hg.step hs).2.good) h

theorem Reachable.good (h : Reachable m) : Good m := by
  obtain ⟨b, m0, tr, hb, hr⟩ := h
  obtain ⟨m1, hb1, hgood, _⟩ := boot_good b
  obtain rfl : m0 = m1 := Except.ok.inj (hb.symm.trans hb1)
  exact hgood.run hr

theorem Reachable.step (h : Reachable m) (hs : m.Step l m') : Reachable m' := by
  obtain ⟨b, m0, tr, hb, hr⟩ := h
  exact ⟨b, m0, _, hb, hr.snoc hs⟩

theorem Reachable.run (h : Reachable m) (hr : Run Machine.Step m tr m') : Reachable m' :=
  hr.invariant (fun _ _ _ h hs => h.step hs) h

theorem Reachable.start {bt : Boot} (hb : boot bt = .ok m) : Reachable m := ⟨bt, m, [], hb, .nil⟩

/-- Each step of a run starts in a reachable state. -/
theorem Reachable.mem (h : Reachable m) (hr : Run Machine.Step m tr m') {mv : Move Machine Label}
    (hmv : mv ∈ tr) : Reachable mv.pre := by
  obtain ⟨tr1, tr2, rfl⟩ := List.append_of_mem hmv
  obtain ⟨t, hr1, hr2⟩ := hr.split
  obtain ⟨rfl, _⟩ := hr2.uncons
  exact h.run hr1

/-- No process is on a queue twice. -/
theorem Good.queue_nodup (h : Good m) (q : KQueue) : (m.queue q).Nodup := by
  obtain ⟨home, waits, hsl⟩ := h.inv.sleepers
  exact hsl.placed.nodup q

/-- The steps that the system takes in a run of the machine. -/
def systemMoves (tr : List (Move Machine Label)) : List (Move System (Event × Return)) :=
  tr.map fun mv => ⟨mv.pre.system, (mv.label.1.event, mv.label.2), mv.post.system⟩

/-- A run of the machine is a run of the system. -/
theorem Good.system_run (h : Good m) (hr : Run Machine.Step m tr m') :
    Run System.Step m.system (systemMoves tr) m'.system :=
  hr.map Machine.system (fun l => (l.1.event, l.2)) (fun _ _ _ hg hs => (hg.step hs).2.good)
    (fun _ _ _ hg hs => (hg.step hs).1) h

/-! ## The run queue -/

/-- The calls that wake processes append them to the run queue. -/
theorem lockGive_run (a : System) (l : LockId) :
    (a.lockGive l).queue .runQueue = a.queue .runQueue ++ (a.queue (.lock l)).head?.toList := by
  unfold System.lockGive
  split
  · rename_i hq
    simp [hq]
  · rename_i p ps hq
    simp only [System.setLock_queue, System.wake_run (q := .lock l) rfl, hq]

/-- The process to which a call of `CondHandleWait` hands the lock. -/
def System.handed (a : System) : Event → List Pid
  | .call (.condWait h) => match a.cond? h with
    | none => []
    | some c =>
      if (a.locks (a.conds c).lock).inuse then (a.queue (.lock (a.conds c).lock)).head?.toList
      else []
  | _ => []

variable {ps : List Pid} {c : Call} {res : Result} {stop : Stop} {lk : LockId} {q : KQueue}

theorem acquires_run (hq : a.queue .runQueue = p :: ps) (hs : a.Acquires p lk stop b res) :
    (∃ n, res = .returns n) ∧ b.queue .runQueue = p :: ps ∨
      (∃ stop, res = .sleeps stop) ∧ b.queue .runQueue = ps ∧ b.queue .runQueue ≠ [] := by
  cases hs with
  | owned => exact .inl ⟨⟨_, rfl⟩, hq⟩
  | sleeps hp ho hrun =>
    exact .inr ⟨⟨_, rfl⟩, by rw [System.slept_run rfl, hq]; simp, hrun⟩
  | takes => exact .inl ⟨⟨_, rfl⟩, hq⟩

theorem semSignal_run (a : System) (s : SemId) :
    ∃ tail, (a.semSignal s).queue .runQueue = a.queue .runQueue ++ tail := by
  unfold System.semSignal
  simp only
  split
  · exact ⟨_, by rw [System.setSem_queue, System.wake_run (q := .sem s) rfl]⟩
  · exact ⟨[], by simp⟩

/-- A call that returns appends the processes that it wakes. A call that
sleeps takes its process off the front. -/
theorem call_run (hq : a.queue .runQueue = p :: ps) (hc : a.Calls p v c b res) :
    (∃ n, res = .returns n) ∧ (∃ tail, b.queue .runQueue = p :: ps ++ tail) ∨
      (∃ stop, res = .sleeps stop) ∧ b.queue .runQueue = ps ++ a.handed (.call c) ∧
        b.queue .runQueue ≠ [] := by
  cases hc with
  | unnamed | lockRefused | signalRefused | broadcastRefused | shareCreatePage | shareMapPage
  | semCreate | lockCreate | condCreate | semTakes =>
    exact .inl ⟨⟨_, rfl⟩, [], by simpa using hq⟩
  | semSleeps hs hn hrun =>
    exact .inr ⟨⟨_, rfl⟩, by rw [System.slept_run rfl, hq]; simp [System.handed], hrun⟩
  | semSignal hs =>
    obtain ⟨tail, h⟩ := semSignal_run a _
    exact .inl ⟨⟨_, rfl⟩, tail, by rw [h, hq]⟩
  | lockAcquire hl hb =>
    rcases acquires_run hq hb with ⟨h1, h2⟩ | ⟨h1, h2, h3⟩
    · exact .inl ⟨h1, [], by simpa using h2⟩
    · exact .inr ⟨h1, by simpa [System.handed] using h2, h3⟩
  | lockRelease hl hp => exact .inl ⟨⟨_, rfl⟩, _, by rw [lockGive_run, hq]⟩
  | condWait hk hp hi hrun =>
    -- the lock is handed over first
    refine .inr ⟨⟨_, rfl⟩, ?_, hrun⟩
    rw [System.slept_run rfl, lockGive_run, hq]
    simp [System.handed, hk, hi]
  | condWaitUnlocked hk hp hi hrun =>
    refine .inr ⟨⟨_, rfl⟩, ?_, hrun⟩
    rw [System.slept_run rfl, hq]
    simp [System.handed, hk, hi]
  | condSignal hk hp =>
    exact .inl ⟨⟨_, rfl⟩, _, by rw [System.wake_run (q := .cond _) rfl, hq]⟩
  | condBroadcast hk hp =>
    exact .inl ⟨⟨_, rfl⟩, _, by rw [System.wakeAll_run _ (q := .cond _) rfl, hq]⟩

theorem resumes_run (hq : a.queue .runQueue = p :: ps) (hc : a.Resumes p stop b res) :
    (∃ n, res = .returns n) ∧ b.queue .runQueue = p :: ps ∨
      (∃ stop, res = .sleeps stop) ∧ b.queue .runQueue = ps ∧ b.queue .runQueue ≠ [] := by
  cases hc with
  | returns => exact .inl ⟨⟨_, rfl⟩, hq⟩
  | acquires hi hb => exact acquires_run hq hb

/-- Every step keeps the order of the processes behind the one that runs. Only
the end of a process takes the first of them away. -/
theorem step_run (hq : a.queue .runQueue = p :: ps) (hs : a.step v e = some (b, r)) :
    (∃ tail, b.queue .runQueue = p :: ps ++ tail) ∨
      e ≠ .exit ∧ (∃ tail, b.queue .runQueue = ps ++ tail) ∧ b.queue .runQueue ≠ [] ∨
      e = .exit ∧ ∃ q rs, ps = q :: rs ∧ b.queue .runQueue = rs ++ [q] := by
  cases System.steps hs with
  | timer hq' | contextSwitch hq' =>
    obtain ⟨rfl, rfl⟩ := List.cons.inj (hq.symm.trans hq')
    exact .inr (.inl ⟨by simp, ⟨[p], by simp [moveLast, hq]⟩, by simp [moveLast, hq]⟩)
  | exit hq' =>
    obtain ⟨rfl, rfl⟩ := List.cons.inj (hq.symm.trans hq')
    exact .inr (.inr ⟨rfl, _, _, rfl, by simp [moveLast, hq]⟩)
  | forkFails => exact .inl ⟨[], by simp [moveLast, hq]⟩
  | @fork _ _ x => exact .inl ⟨[x], by simp [moveLast, hq]⟩
  | call hq' hc =>
    obtain ⟨rfl, rfl⟩ := List.cons.inj (hq.symm.trans hq')
    rcases call_run hq hc with ⟨_, h⟩ | ⟨_, h, h'⟩
    · exact .inl h
    · exact .inr (.inl ⟨by simp, ⟨_, h⟩, h'⟩)
  | resume hq' hstop hc =>
    obtain ⟨rfl, rfl⟩ := List.cons.inj (hq.symm.trans hq')
    rcases resumes_run hq hc with ⟨_, h⟩ | ⟨_, h, h'⟩
    · exact .inl ⟨[], by simpa using h⟩
    · exact .inr (.inl ⟨by simp, ⟨[], by simpa using h⟩, h'⟩)

/-- While a process exists, one of them runs. -/
def System.Alive (a : System) : Prop := a.current = none → ∀ p, p ∈ a.queue .freepcbs

theorem Alive.step (h : a.Alive) (hr : a.Ready e) (hs : a.step v e = some (b, r)) : b.Alive := by
  intro hb
  rcases hq : a.queue .runQueue with _ | ⟨p, ps⟩
  · -- only a fork is possible, and it fails
    have hcur : a.current = none := by simp [System.current, hq]
    cases System.steps hs with
    | timer hq' | contextSwitch hq' | exit hq' | call hq' | resume hq' =>
      cases hq.symm.trans hq'
    | forkFails hf =>
      intro p
      have hp := h hcur p
      simp only [System.move_queue, moveLast, update_self, hf, List.erase_cons_head]
      simpa [hf, or_comm] using hp
    | fork hf hl => simp [System.current, moveLast] at hb
  · rcases step_run hq hs with ⟨tail, h⟩ | ⟨_, _, h⟩ | ⟨_, q, rs, _, h⟩
    · simp [System.current, h] at hb
    · simp [System.current, h] at hb
    · simp [System.current, h] at hb

theorem Reachable.alive (h : Reachable m) : m.system.Alive := by
  obtain ⟨b, m0, tr, hb, hr⟩ := h
  obtain ⟨m1, hb1, hgood, hstart, _⟩ := boot_good b
  obtain rfl : m0 = m1 := Except.ok.inj (hb.symm.trans hb1)
  have hrun := hgood.system_run hr
  refine hrun.invariant (I := System.Alive) (fun _ _ _ hi hs => ?_) ?_
  · obtain ⟨v, hv⟩ := hs.2
    exact Alive.step hi hs.1 hv
  · intro _ p
    simp [hstart, System.start]

end dlxos
