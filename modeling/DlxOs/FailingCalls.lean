-- Calls that fail: a handle that names nothing, or a caller that does not own
-- the lock. Such a call changes nothing and gives `SYNC_FAIL`, but
-- `CondHandleWait` ends the simulation, and the owner test of a condition
-- variable passes for a lock that nobody created.
import DlxOs.CondVars

namespace dlxos

open Function runs

variable {m m' : Machine} {p : Pid} {c : Call} {level : Level} {k : Kernel} {h : Int}

/-- The call names an object that was never created, or the caller does not
own the lock that it needs. -/
def Machine.Fails (m : Machine) (p : Pid) : Call → Prop
  | .semWait h | .semSignal h => m.system.sem? h = none
  | .lockAcquire h => m.system.lock? h = none
  | .lockRelease h => ∀ l, m.system.lock? h = some l → (m.kernel.locks l).pid ≠ p.val
  | .condWait h | .condSignal h | .condBroadcast h => ∀ c, m.system.cond? h = some c →
    ¬ ((m.kernel.locks (m.condLock c)).inuse = true ∧
      (m.kernel.locks (m.condLock c)).pid = p.val)
  | _ => False

/-- The kernel is as before, but for the interrupt level, the console and the
results of calls. -/
structure Untouched (k k' : Kernel) : Prop where
  sems : k'.sems = k.sems
  locks : k'.locks = k.locks
  conds : k'.conds = k.conds
  queues : k'.qs = k.qs
  current : k'.currentPCB = k.currentPCB
  flags : ∀ p, (k'.pcbs p).flags = (k.pcbs p).flags
  frozen : Frozen k k'

/-- The call gives `SYNC_FAIL` to its caller, which goes on, and changes
nothing. -/
structure NoOp (m : Machine) (p : Pid) (c : Call) (level : Level) (m' : Machine) : Prop where
  run : m.step ⟨.call c, level⟩ = .ok (m', some (c, SYNC_FAIL))
  result : (m'.kernel.pcbs p).result = SYNC_FAIL
  frames : m'.frames = m.frames
  untouched : Untouched m.kernel m'.kernel

/-- The call is no wait on a condition variable that exists, and no signal or
broadcast on one whose lock holds the number of the caller. -/
def Machine.Checked (m : Machine) (p : Pid) : Call → Prop
  | .condWait h => m.system.cond? h = none
  | .condSignal h | .condBroadcast h => ∀ c, m.system.cond? h = some c →
    (m.kernel.locks (m.condLock c)).pid ≠ p.val
  | _ => True

/-! ## The routines that fail -/

/-- The routine gives `SYNC_FAIL`, and changes no more than the interrupt level
and the console. -/
def GivesUp (x : K Outcome) (k : Kernel) : Prop :=
  ∃ intrs console, x k = .ok (.returns SYNC_FAIL, { k with intrs, console })

theorem GivesUp.fail (k : Kernel) : GivesUp (pure (.returns SYNC_FAIL)) k :=
  ⟨k.intrs, k.console, rfl⟩

/-- A wrapper gives up on a handle that names nothing, or its routine does. -/
theorem GivesUp.handle {n : Nat} (i : Fin n → Bool) {f : Fin n → K Outcome} {x : K Outcome}
    (hf : ∀ j, (slot? n h).filter i = some j → GivesUp (f j) k)
    (hx : x k = (slot? n h).elim (pure (.returns SYNC_FAIL) : K Outcome)
      (fun j => if i j then f j else pure (.returns SYNC_FAIL)) k) : GivesUp x k := by
  rw [GivesUp, hx]
  rcases hs : slot? n h with _ | j
  · exact GivesUp.fail k
  · by_cases hi : i j = true
    · simp only [Option.elim, hi, if_true]
      exact hf j (by simp [hs, hi])
    · simp only [Option.elim, hi]
      exact GivesUp.fail k

/-- The start of a routine that asks for the owner of a lock. -/
theorem owner_run (lock : Kernel → LockId) {fail : K Outcome}
    {rest : Level → Pid → Kernel → K Outcome} (hcur : k.currentPCB = some p) :
    (do
      let intrs ← DisableIntrs
      let pid ← GetCurrentPid
      let k ← K.read
      if (k.locks (lock k)).pid ≠ (pid : Int) then fail else rest intrs pid k : K Outcome) k =
    if (k.locks (lock (k.withIntrs 15))).pid ≠ (p.val : Int) then fail (k.withIntrs 15)
    else rest k.intrs p (k.withIntrs 15) (k.withIntrs 15) := by
  rw [DisableIntrs, K.bind_ok (SetIntrs_run 15 k),
    K.bind_ok (GetCurrentPid_run (k := k.withIntrs 15) hcur), K.bind_ok (K.read_run _), K.ite_run]
  rfl

/-- A routine that first asks for the owner of a lock gives up for another
caller. -/
theorem GivesUp.owner (lock : Kernel → LockId) {fail : K Outcome}
    {rest : Level → Pid → Kernel → K Outcome} (hlock : lock (k.withIntrs 15) = lock k)
    (hcur : k.currentPCB = some p) (hp : (k.locks (lock k)).pid ≠ p.val)
    (hfail : GivesUp fail (k.withIntrs 15)) :
    GivesUp (do
      let intrs ← DisableIntrs
      let pid ← GetCurrentPid
      let k ← K.read
      if (k.locks (lock k)).pid ≠ (pid : Int) then fail else rest intrs pid k) k := by
  rw [GivesUp, owner_run lock hcur, hlock, if_pos hp]
  obtain ⟨intrs, console, hrun⟩ := hfail
  exact ⟨intrs, console, hrun⟩

theorem LockRelease.givesUp {l : LockId} (hcur : k.currentPCB = some p)
    (hp : (k.locks l).pid ≠ p.val) : GivesUp (LockRelease l) k :=
  GivesUp.owner (fun _ => l) rfl hcur hp (.fail _)

theorem CondSignal.givesUp {c : CondId} (hcur : k.currentPCB = some p)
    (hp : (k.locks (k.conds c).lock).pid ≠ p.val) : GivesUp (CondSignal c) k :=
  GivesUp.owner (fun k => (k.conds c).lock) rfl hcur hp ⟨15, _, rfl⟩

theorem CondBroadcast.givesUp {c : CondId} (hcur : k.currentPCB = some p)
    (hp : (k.locks (k.conds c).lock).pid ≠ p.val) : GivesUp (CondBroadcast c) k :=
  GivesUp.owner (fun k => (k.conds c).lock) rfl hcur hp ⟨15, _, rfl⟩

/-- A failing call that passes the checks gives up. -/
theorem trap_givesUp (hcur : m.kernel.currentPCB = some p) (hf : m.Fails p c)
    (hc : m.Checked p c) : GivesUp (trap c) (m.kernel.withIntrs level) := by
  have hcur' : (m.kernel.withIntrs level).currentPCB = some p := hcur
  cases c with
  | semWait h =>
    have hn : m.system.sem? h = none := hf
    refine GivesUp.handle (f := SemWait) (fun j => (m.kernel.sems j).inuse)
      (fun _ hj => absurd (hn.symm.trans hj) (by simp)) ?_
    rw [trap, SemHandleWait, K.bind_ok (K.read_run _)]
    cases slot? MAX_SEMS h <;> rfl
  | semSignal h =>
    have hn : m.system.sem? h = none := hf
    refine GivesUp.handle (f := SemSignal) (fun j => (m.kernel.sems j).inuse)
      (fun _ hj => absurd (hn.symm.trans hj) (by simp)) ?_
    rw [trap, SemHandleSignal, K.bind_ok (K.read_run _)]
    cases slot? MAX_SEMS h <;> rfl
  | lockAcquire h =>
    have hn : m.system.lock? h = none := hf
    refine GivesUp.handle (f := LockAcquire) (fun j => (m.kernel.locks j).inuse)
      (fun _ hj => absurd (hn.symm.trans hj) (by simp)) ?_
    rw [trap, LockHandleAcquire, K.bind_ok (K.read_run _)]
    cases slot? MAX_LOCKS h <;> rfl
  | lockRelease h =>
    refine GivesUp.handle (fun j => (m.kernel.locks j).inuse)
      (fun j hj => LockRelease.givesUp hcur' (hf j hj)) ?_
    rw [trap, LockHandleRelease, K.bind_ok (K.read_run _)]
    cases slot? MAX_LOCKS h <;> rfl
  | condWait h =>
    have hn : m.system.cond? h = none := hc
    refine GivesUp.handle (f := CondWait) (fun j => (m.kernel.conds j).inuse)
      (fun _ hj => absurd (hn.symm.trans hj) (by simp)) ?_
    rw [trap, CondHandleWait, K.bind_ok (K.read_run _)]
    cases slot? MAX_CONDS h <;> rfl
  | condSignal h =>
    refine GivesUp.handle (fun j => (m.kernel.conds j).inuse)
      (fun j hj => CondSignal.givesUp hcur' (hc j hj)) ?_
    rw [trap, CondHandleSignal, K.bind_ok (K.read_run _)]
    cases slot? MAX_CONDS h <;> rfl
  | condBroadcast h =>
    refine GivesUp.handle (fun j => (m.kernel.conds j).inuse)
      (fun j hj => CondBroadcast.givesUp hcur' (hc j hj)) ?_
    rw [trap, CondHandleBroadcast, K.bind_ok (K.read_run _)]
    cases slot? MAX_CONDS h <;> rfl
  | _ => exact absurd hf id

theorem finish_returns (m : Machine) (p : Pid) (c : Call) (v : Int) (k : Kernel) :
    m.finish p c (.returns v) k =
      .ok (⟨{ k with pcbs := update k.pcbs p { k.pcbs p with result := v } },
        update m.frames p none⟩, some (c, v)) := rfl

/-- A routine that gives up makes its call one that changes nothing. -/
theorem noOp_of_givesUp (hr : m.Ready ⟨.call c, level⟩) (hcur : m.kernel.currentPCB = some p)
    (hg : GivesUp (trap c) (m.kernel.withIntrs level)) : ∃ m', NoOp m p c level m' := by
  obtain ⟨intrs, console, hrun⟩ := hg
  obtain ⟨x, hx, hframe⟩ := hr
  obtain rfl : p = x := Option.some.inj (hcur.symm.trans hx)
  have hframes : update m.frames p none = m.frames := by rw [← hframe, update_eq_self]
  have hstep : m.step ⟨.call c, level⟩ = trap c (m.kernel.withIntrs level) >>= fun r =>
      m.finish p c r.1 r.2 := by
    change (GetCurrentPid (m.kernel.withIntrs level) >>= fun _ => _) = _
    rw [GetCurrentPid_run (k := m.kernel.withIntrs level) hcur]
    rfl
  have hend : m.step ⟨.call c, level⟩ = .ok (⟨{ m.kernel with
      intrs, console
      pcbs := update m.kernel.pcbs p { m.kernel.pcbs p with result := SYNC_FAIL } }, m.frames⟩,
      some (c, SYNC_FAIL)) := by
    rw [hstep, hrun]
    change m.finish p c (.returns SYNC_FAIL) _ = _
    rw [finish_returns, hframes]
    rfl
  refine ⟨_, hend, by simp, rfl, ⟨rfl, rfl, rfl, rfl, rfl, fun q => ?_, rfl, rfl, fun q => ?_⟩⟩
  all_goals
    by_cases hq : q = p
    · subst hq
      simp
    · simp [hq]

/-- A failing call that does not pass the checks ends the simulation, sleeps,
or succeeds. -/
theorem Good.not_noOp (hg : Good m) (hr : m.Ready ⟨.call c, level⟩)
    (hcur : m.kernel.currentPCB = some p) (hc : ¬ m.Checked p c) : ¬ NoOp m p c level m' := by
  intro hno
  obtain ⟨⟨_, v, hv⟩, _⟩ := hg.step (l := (⟨.call c, level⟩, some (c, SYNC_FAIL))) ⟨hr, hno.run⟩
  obtain ⟨x, d, res, hx, hcall, _, hres⟩ := step_call hv
  obtain rfl : p = x := Option.some.inj (hcur.symm.trans (hg.current.trans hx))
  rcases res with n | stop
  swap
  · cases hres
  have hn : n = SYNC_FAIL := by simpa [Result.value] using hres.symm
  cases c with
  | condWait h =>
    obtain ⟨k, hk⟩ := Option.ne_none_iff_exists'.mp hc
    cases hcall with
    | unnamed ht => simp [System.callTouches, hk] at ht
  | condSignal h =>
    simp only [Machine.Checked, not_forall, not_not] at hc
    obtain ⟨k, hk, hp⟩ := hc
    cases hcall with
    | unnamed ht => simp [System.callTouches, hk] at ht
    | condSignal => cases hn
    | signalRefused hk' hp' =>
      obtain rfl := Option.some.inj (hk.symm.trans hk')
      exact hp' hp
  | condBroadcast h =>
    simp only [Machine.Checked, not_forall, not_not] at hc
    obtain ⟨k, hk, hp⟩ := hc
    cases hcall with
    | unnamed ht => simp [System.callTouches, hk] at ht
    | condBroadcast => cases hn
    | broadcastRefused hk' hp' =>
      obtain rfl := Option.some.inj (hk.symm.trans hk')
      exact hp' hp
  | _ => exact hc trivial

theorem failing_call_is_noop_iff (h : Reachable m) (hcur : m.kernel.currentPCB = some p)
    (hr : m.Ready ⟨.call c, level⟩) (hf : m.Fails p c) :
    (∃ m', NoOp m p c level m') ↔ m.Checked p c := by
  constructor
  · rintro ⟨m', hno⟩
    by_contra hc
    exact h.good.not_noOp hr hcur hc hno
  · intro hc
    exact noOp_of_givesUp hr hcur (trap_givesUp hcur hf hc)

/-- The second process has created a condition variable on a lock that the
first one owns. -/
def notOwnerRun : List Event :=
  [.fork true true, .fork true true, .call .lockCreate, .call (.lockAcquire 0), .timer,
    .call (.condCreate 0)]

theorem notOwner_reachable : ∃ m, Reachable m ∧ m.kernel.currentPCB = some 30 ∧
    (∀ c level, m.Ready ⟨.call c, level⟩) ∧ m.system.cond? 0 = some 0 ∧ m.condLock 0 = 0 ∧
    (m.kernel.locks 0).pid = 31 := by
  obtain ⟨m, hm, hcur, hstop, hc, hl, hp⟩ := exists_reachable notOwnerRun
    (fun a => a.current = some 30 ∧ a.stopped 30 = none ∧ a.cond? 0 = some 0 ∧
      (a.conds 0).lock = 0 ∧ (a.locks 0).pid = 31) (by decide +kernel)
  exact ⟨m, hm, hm.good.current ▸ hcur, fun c level => (hm.good.ready _).mpr ⟨30, hcur, hstop⟩,
    hc, hl, hp⟩

theorem failing_signal_of_a_run : ∃ m m', Reachable m ∧ NoOp m 30 (.condSignal 0) 0 m' := by
  obtain ⟨m, hm, hcur, hr, hc, hl, hp⟩ := notOwner_reachable
  have hno : ∀ c, m.system.cond? 0 = some c →
      (m.kernel.locks (m.condLock c)).pid ≠ (30 : Pid).val := by
    intro c hc'
    obtain rfl : c = 0 := Option.some.inj (hc'.symm.trans hc)
    rw [hl, hp]
    decide
  obtain ⟨m', hm'⟩ := (failing_call_is_noop_iff hm hcur (hr (.condSignal 0) 0)
    fun c hc' hown => hno c hc' hown.2).mpr hno
  exact ⟨m, m', hm, hm'⟩

theorem wait_without_lock_ends_the_simulation : ∃ m line, Reachable m ∧
    m.kernel.currentPCB = some 30 ∧ m.Fails 30 (.condWait 0) ∧
    m.step ⟨.call (.condWait 0), 0⟩ = .error (.exitsim line) ∧
    ¬ ∃ m', NoOp m 30 (.condWait 0) 0 m' := by
  obtain ⟨m, hm, hcur, hr, hc, hl, hp⟩ := notOwner_reachable
  have hno : (m.system.locks (m.system.conds 0).lock).pid ≠ (30 : Pid).val := by
    change (m.kernel.locks (m.condLock 0)).pid ≠ _
    rw [hl, hp]
    decide
  obtain ⟨ps, hq⟩ := current_cons (hm.good.current ▸ hcur)
  have hgoes := Machine.step_sync hm.good (hr (.condWait 0) 0) (c := .condWait 0) rfl rfl 0
  have hnone : m.system.step 0 (.call (.condWait 0)) = none := by
    simp only [System.step, hq, System.call, hc, Option.elim, System.condWait, hno, if_false,
      Option.map_none]
  simp only [hnone] at hgoes
  obtain ⟨line, hline⟩ := hgoes
  refine ⟨m, line, hm, hcur, fun c hc' hown => ?_, hline, ?_⟩
  · obtain rfl : c = 0 := Option.some.inj (hc'.symm.trans hc)
    exact hno hown.2
  · rintro ⟨m', hm'⟩
    rw [hm'.run] at hline
    cases hline

end dlxos
