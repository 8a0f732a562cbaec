-- Condition variables. A wait, a signal and a broadcast by the owner of the
-- lock are one step each, and a process that waits comes back only after a
-- later signal or broadcast.
import DlxOs.Locks

namespace dlxos

open Function runs

variable {a b : System} {c : CondId} {v : Int} {e : Event} {r : Return} {p : Pid} {q : KQueue}
  {m m' : Machine} {lab : Label} {level : Level}

/-! ## One step of the system -/

theorem cond?_val (hi : (a.conds c).inuse = true) {h : Int} :
    a.cond? h = some c ↔ h = (c.val : Int) := by
  rw [cond?_some, slot?_eq_some]
  exact ⟨fun h => h.1, fun h => ⟨h, hi⟩⟩

/-- A process is asleep where it is on some waiting queue. -/
theorem Inv.asleep_iff (h : Inv a) :
    p ∈ a.queue .waitQueue ↔ ∃ q, q.isProc = false ∧ p ∈ a.queue q := by
  obtain ⟨home, waits, hsl⟩ := h.sleepers
  rw [hsl.placed.mem_proc rfl, hsl.waiting, Option.ne_none_iff_exists']
  constructor
  · rintro ⟨q, hw⟩
    have hq := hsl.placed.isWait p q hw
    exact ⟨q, hq, (hsl.placed.mem_wait hq p).mpr hw⟩
  · rintro ⟨q, hq, hp⟩
    exact ⟨q, (hsl.placed.mem_wait hq p).mp hp⟩

theorem Inv.once (h : Inv a) (hq : q.isProc = false) {r : KQueue} (hr : r.isProc = false)
    (hp : p ∈ a.queue q) (hpr : p ∈ a.queue r) : q = r := by
  obtain ⟨home, waits, hsl⟩ := h.sleepers
  have h1 := (hsl.placed.mem_wait hq p).mp hp
  have h2 := (hsl.placed.mem_wait hr p).mp hpr
  exact Option.some.inj (h1.symm.trans h2)

/-- The call of the owner in which it goes to sleep. -/
theorem step_condWait {ps : List Pid} (hi : (a.conds c).inuse = true)
    (hl : (a.locks (a.conds c).lock).inuse = true) (hq : a.queue .runQueue = p :: ps)
    (hp : (a.locks (a.conds c).lock).pid = p.val) :
    a.step v (.call (.condWait c.val)) =
      if ps ++ (a.queue (.lock (a.conds c).lock)).head?.toList = [] then none
      else some (((a.lockGive (a.conds c).lock).slept p (.cond c)).setStopped p
        (some (.condWait c.val, .condWait c)), none) := by
  have hrun : ((a.lockGive (a.conds c).lock).slept p (.cond c)).queue .runQueue =
      ps ++ (a.queue (.lock (a.conds c).lock)).head?.toList := by
    rw [System.slept_run rfl, lockGive_run, hq]
    simp
  simp only [System.step, hq, System.call, (cond?_val hi).mpr rfl, Option.elim, System.condWait,
    hp, hl, if_true, System.sleep, hrun]
  split <;> rfl

theorem step_condSignal {ps : List Pid} (hi : (a.conds c).inuse = true)
    (hq : a.queue .runQueue = p :: ps) (hp : (a.locks (a.conds c).lock).pid = p.val) :
    a.step v (.call (.condSignal c.val)) =
      some ((System.wakeAll (.cond c) 1 a).setStopped p none,
        some (.condSignal c.val, SYNC_SUCCESS)) := by
  simp [System.step, hq, System.call, (cond?_val hi).mpr rfl, System.condSignal, hp,
    System.wakeAll, System.finish, Result.stop, Result.value]

theorem step_condBroadcast {ps : List Pid} (hi : (a.conds c).inuse = true)
    (hq : a.queue .runQueue = p :: ps) (hp : (a.locks (a.conds c).lock).pid = p.val) :
    a.step v (.call (.condBroadcast c.val)) =
      some ((System.wakeAll (.cond c) (a.queue (.cond c)).length a).setStopped p none,
        some (.condBroadcast c.val, SYNC_SUCCESS)) := by
  simp [System.step, hq, System.call, (cond?_val hi).mpr rfl, System.condBroadcast, hp,
    System.finish, Result.stop, Result.value]

/-- A call that wakes the processes `woken` of the queue, in this order, and
nobody else. -/
structure Wakes (a b : System) (c : CondId) (woken : List Pid) : Prop where
  queue : a.queue (.cond c) = woken ++ b.queue (.cond c)
  run : b.queue .runQueue = a.queue .runQueue ++ woken
  exactly : ∀ p, p ∈ woken ↔ p ∈ a.queue .waitQueue ∧ p ∉ b.queue .waitQueue
  others : ∀ q, q.isProc = false → q ≠ .cond c → b.queue q = a.queue q
  locks : b.locks = a.locks

theorem Inv.wakes (h : Inv a) (n : Nat)
    (hb : Inv ((System.wakeAll (.cond c) n a).setStopped p none)) :
    Wakes a ((System.wakeAll (.cond c) n a).setStopped p none) c
      ((a.queue (.cond c)).take n) := by
  have hcond : (System.wakeAll (.cond c) n a).queue (.cond c) = (a.queue (.cond c)).drop n := by
    rw [System.wakeAll_waiting n rfl, update_self]
  have hothers : ∀ q, q.isProc = false → q ≠ .cond c →
      (System.wakeAll (.cond c) n a).queue q = a.queue q := by
    intro q hq hne
    rw [System.wakeAll_waiting n hq, update_of_ne hne]
  refine ⟨?_, System.wakeAll_run n rfl, fun x => ?_, hothers, System.wakeAll_locks n⟩
  · rw [System.setStopped_queue, hcond, List.take_append_drop]
  · rw [h.asleep_iff, hb.asleep_iff]
    simp only [System.setStopped_queue, not_exists, not_and]
    obtain ⟨home, waits, hsl⟩ := h.sleepers
    have hd : ((a.queue (.cond c)).take n ++ (a.queue (.cond c)).drop n).Nodup := by
      rw [List.take_append_drop]
      exact hsl.placed.nodup _
    constructor
    · intro hx
      have hmem := List.mem_of_mem_take hx
      refine ⟨⟨_, rfl, hmem⟩, fun q hq hxq => ?_⟩
      by_cases hne : q = .cond c
      · subst hne
        rw [hcond] at hxq
        exact (List.nodup_append.mp hd).2.2 x hx x hxq rfl
      · rw [hothers q hq hne] at hxq
        exact hne (h.once hq rfl hxq hmem)
    · rintro ⟨⟨q, hq, hx⟩, hno⟩
      have hnq := hno q hq
      by_cases hne : q = .cond c
      · subst hne
        rw [hcond] at hnq
        rw [← List.take_append_drop n (a.queue (.cond c)), List.mem_append] at hx
        exact hx.resolve_right hnq
      · rw [hothers q hq hne] at hnq
        exact absurd hx hnq

/-- The owner of the lock wakes processes of the queue in a step. -/
def System.Signals (a : System) (c : CondId) (e : Event) : Prop :=
  (e = .call (.condSignal c.val) ∨ e = .call (.condBroadcast c.val)) ∧
    ∃ p, a.current = some p ∧ (a.locks (a.conds c).lock).pid = p.val

/-- No other step takes a process off the queue. -/
theorem leaves_cond (hi : (a.conds c).inuse = true) (hs : a.step v e = some (b, r))
    (hp : p ∈ a.queue (.cond c)) (hn : p ∉ b.queue (.cond c)) : a.Signals c e := by
  by_cases ht : KQueue.cond c ∈ a.touches e
  swap
  · have hsame := System.Same.step hs ht
    rw [hsame.2] at hn
    exact absurd hp hn
  cases e with
  | call call =>
    obtain ⟨x, d, res, hx, hc, rfl, rfl⟩ := step_call hs
    cases hc with
    | condCreate hl hu =>
      obtain rfl : c = _ := by simpa [System.touches, System.callTouches, hl, hu] using ht
      rw [firstUnused_some hu] at hi
      cases hi
    | condWait hk hp' hmade hrun =>
      obtain rfl : c = _ := by simpa [System.touches, System.callTouches, hk] using ht
      have hgive := (System.Same.lockGive a (a.conds c).lock (q := .cond c) (by simp)).2
      rw [System.setStopped_queue, System.slept_waiting rfl, update_self, hgive] at hn
      exact absurd (List.mem_append_left _ hp) hn
    | condWaitUnlocked hk hp' hmade hrun =>
      obtain rfl : c = _ := by simpa [System.touches, System.callTouches, hk] using ht
      rw [System.setStopped_queue, System.slept_waiting rfl, update_self] at hn
      exact absurd (List.mem_append_left _ hp) hn
    | condSignal hk hp' =>
      obtain rfl : c = _ := by simpa [System.touches, System.callTouches, hk] using ht
      obtain rfl := (cond?_val hi).mp hk
      exact ⟨.inl rfl, x, hx, hp'⟩
    | condBroadcast hk hp' =>
      obtain rfl : c = _ := by simpa [System.touches, System.callTouches, hk] using ht
      obtain rfl := (cond?_val hi).mp hk
      exact ⟨.inr rfl, x, hx, hp'⟩
    | signalRefused | broadcastRefused => exact absurd hp hn
    | unnamed h => simp [System.touches, h] at ht
    | _ => simp [System.touches, System.callTouches, *] at ht
  | resume =>
    simp only [System.touches] at ht
    split at ht <;> simp at ht
  | _ => simp [System.touches] at ht

theorem acquires_value {l : LockId} {stop : Stop} {n : Int}
    (h : a.Acquires p l stop b (.returns n)) : n = SYNC_SUCCESS := by
  cases h <;> rfl

/-- A wait that comes back gives success. -/
theorem condWait_value (hi : (a.conds c).inuse = true) {n : Int}
    (hs : a.step v e = some (b, some (.condWait c.val, n))) : n = SYNC_SUCCESS := by
  cases e with
  | call call =>
    obtain ⟨x, d, res, hx, hc, rfl, hr⟩ := step_call hs
    rcases res with k | stop
    swap
    · cases hr
    obtain ⟨rfl, rfl⟩ : call = .condWait c.val ∧ n = k := by
      simpa [Result.value, eq_comm] using hr
    cases hc with
    | unnamed ht => simp [System.callTouches, (cond?_val hi).mpr rfl] at ht
  | resume =>
    obtain ⟨x, call, stop, d, res, hx, hc, rfl, hr⟩ := step_resume hs
    rcases res with k | stop'
    swap
    · cases hr
    obtain rfl : n = k := by simpa [Result.value, eq_comm] using congrArg (Option.map Prod.snd) hr
    cases hc with
    | returns => rfl
    | acquires _ hb => exact acquires_value hb
  | timer | contextSwitch | exit | fork => cases step_silent hs (by simp)

/-! ## One step of the machine -/

/-- The machine before anything was written without protection. -/
def Machine.unexposed (m : Machine) : Machine :=
  { m with kernel := { m.kernel with exposed := false } }

theorem Good.unexposed (h : Good m) : Good m.unexposed :=
  ⟨⟨h.sim.rep, h.sim.sems, h.sim.locks, h.sim.conds, h.sim.status, h.sim.lines,
    ⟨h.sim.pages.bits, h.sim.pages.shared, h.sim.pages.npages, h.sim.pages.ptes,
      h.sim.pages.stack⟩⟩, h.inv, h.current⟩

/-- The lock of a condition variable. -/
def Machine.condLock (m : Machine) (c : CondId) : LockId := (m.kernel.conds c).lock

/-- Process `p` owns the lock of the condition variable. -/
def Machine.Owns (m : Machine) (c : CondId) (p : Pid) : Prop :=
  m.kernel.currentPCB = some p ∧ (m.kernel.locks (m.condLock c)).pid = p.val

/-- Process `p` sleeps on the condition variable, and the first process that
waits for the lock, if there is one, owns it and runs later. -/
structure Sleeps (m m' : Machine) (c : CondId) (p : Pid) : Prop where
  cond : m'.queue (.cond c) = m.queue (.cond c) ++ [p]
  asleep : p ∈ m'.queue .waitQueue
  lock : m'.queue (.lock (m.condLock c)) = (m.queue (.lock (m.condLock c))).tail
  pid : (m'.kernel.locks (m.condLock c)).pid =
    (m.queue (.lock (m.condLock c))).head?.elim (-1) fun q => (q.val : Int)
  run : m'.queue .runQueue =
    (m.queue .runQueue).tail ++ (m.queue (.lock (m.condLock c))).head?.toList
  others : ∀ q, q.isProc = false → q ≠ .cond c → q ≠ .lock (m.condLock c) →
    m'.queue q = m.queue q

theorem lockGive_pid (a : System) (l : LockId) : ((a.lockGive l).locks l).pid =
    (a.queue (.lock l)).head?.elim (-1) fun q => (q.val : Int) := by
  unfold System.lockGive
  split
  · rename_i hq
    simp [hq]
  · rename_i hq
    simp [hq]

theorem lockGive_waiting {l : LockId} (hq : q.isProc = false) : (a.lockGive l).queue q =
    update a.queue (.lock l) (a.queue (.lock l)).tail q := by
  unfold System.lockGive
  split
  · rename_i h
    rw [h, List.tail_nil, ← h, update_eq_self]
    rfl
  · rw [System.setLock_queue, System.wake_waiting hq]

/-- The owner goes to sleep, or nobody can run and the simulation ends. -/
theorem Good.condWait_step (h : Good m) (hi : (m.kernel.conds c).inuse = true)
    (hl : (m.kernel.locks (m.condLock c)).inuse = true)
    (hr : m.Ready ⟨.call (.condWait c.val), level⟩) (hp : m.Owns c p) :
    (∃ m', m.step ⟨.call (.condWait c.val), level⟩ = .ok (m', none) ∧ Sleeps m m' c p) ∨
      m.queue .runQueue = [p] ∧ m.queue (.lock (m.condLock c)) = [] ∧
        ∃ line, m.step ⟨.call (.condWait c.val), level⟩ = .error (.exitsim line) := by
  obtain ⟨hcur, hpid⟩ := hp
  obtain ⟨ps, hq⟩ := current_cons (h.current ▸ hcur)
  have hgoes := Machine.step_sync h hr (c := .condWait c.val) rfl rfl 0
  have hstep := step_condWait (v := 0) hi hl hq hpid
  simp only [hstep] at hgoes
  split at hgoes
  · rename_i hnil
    obtain ⟨rfl, hhead⟩ := List.append_eq_nil_iff.mp hnil
    refine .inr ⟨hq, ?_, hgoes⟩
    rcases hlq : m.queue (.lock (m.condLock c)) with _ | ⟨x, xs⟩
    · rfl
    · have hhead' : (m.queue (.lock (m.condLock c))).head?.toList = [] := hhead
      rw [hlq] at hhead'
      cases hhead'
  · obtain ⟨m', hf⟩ := hgoes
    have hqueue : ∀ q, m'.queue q =
        ((m.system.lockGive (m.condLock c)).slept p (.cond c)).queue q := by
      intro q
      rw [← system_queue, hf.system]
      rfl
    have hlocks : m'.kernel.locks = (m.system.lockGive (m.condLock c)).locks := by
      rw [← system_locks, hf.system]
      rfl
    have hcond : (m.system.lockGive (m.condLock c)).queue (.cond c) = m.queue (.cond c) := by
      rw [lockGive_waiting rfl, update_of_ne (by simp)]
      rfl
    have hcondq : m'.queue (.cond c) = m.queue (.cond c) ++ [p] := by
      rw [hqueue, System.slept_waiting rfl, update_self, hcond]
    refine .inl ⟨m', hf.run, hcondq, ?_, ?_, ?_, ?_, fun q hq1 hne hne' => ?_⟩
    · exact hf.good.inv.asleep_iff.mpr ⟨.cond c, rfl, by rw [system_queue, hcondq]; simp⟩
    · rw [hqueue, System.slept_waiting rfl, update_of_ne (by simp), lockGive_waiting rfl,
        update_self]
      rfl
    · rw [hlocks, lockGive_pid]
      rfl
    · rw [hqueue, System.slept_run rfl, lockGive_run, hq]
      rw [system_queue] at hq
      simp [hq]
    · rw [hqueue, System.slept_waiting hq1, update_of_ne hne, lockGive_waiting hq1,
        update_of_ne hne']
      rfl

/-- The owner wakes the first process of the queue, if there is one. -/
theorem Good.condSignal_step (h : Good m) (hi : (m.kernel.conds c).inuse = true)
    (hr : m.Ready ⟨.call (.condSignal c.val), level⟩) (hp : m.Owns c p) :
    ∃ m', m.step ⟨.call (.condSignal c.val), level⟩ =
        .ok (m', some (.condSignal c.val, SYNC_SUCCESS)) ∧
      Wakes m.system m'.system c ((m.queue (.cond c)).take 1) := by
  obtain ⟨hcur, hpid⟩ := hp
  obtain ⟨ps, hq⟩ := current_cons (h.current ▸ hcur)
  have hgoes := Machine.step_sync h hr (c := .condSignal c.val) rfl rfl 0
  simp only [step_condSignal (v := 0) hi hq hpid] at hgoes
  obtain ⟨m', hf⟩ := hgoes
  have hinv := hf.good.inv
  rw [hf.system] at hinv
  exact ⟨m', hf.run, hf.system ▸ h.inv.wakes 1 hinv⟩

/-- The owner wakes every process of the queue. -/
theorem Good.condBroadcast_step (h : Good m) (hi : (m.kernel.conds c).inuse = true)
    (hr : m.Ready ⟨.call (.condBroadcast c.val), level⟩) (hp : m.Owns c p) :
    ∃ m', m.step ⟨.call (.condBroadcast c.val), level⟩ =
        .ok (m', some (.condBroadcast c.val, SYNC_SUCCESS)) ∧
      Wakes m.system m'.system c (m.queue (.cond c)) := by
  obtain ⟨hcur, hpid⟩ := hp
  obtain ⟨ps, hq⟩ := current_cons (h.current ▸ hcur)
  have hgoes := Machine.step_sync h hr (c := .condBroadcast c.val) rfl rfl 0
  simp only [step_condBroadcast (v := 0) hi hq hpid] at hgoes
  obtain ⟨m', hf⟩ := hgoes
  have hinv := hf.good.inv
  rw [hf.system] at hinv
  have hw := h.inv.wakes _ hinv
  rw [List.take_length] at hw
  exact ⟨m', hf.run, hf.system ▸ hw⟩

/-! ## Runs -/

/-- A call of `CondHandleSignal` or `CondHandleBroadcast` by the owner of the
lock. -/
def Signals (c : CondId) (mv : Move Machine Label) : Prop :=
  (mv.label.1.event = .call (.condSignal c.val) ∨
    mv.label.1.event = .call (.condBroadcast c.val)) ∧ ∃ p, mv.pre.Owns c p

structure CondOk (m : Machine) (c : CondId) : Prop where
  wait : ∀ p level, m.Owns c p → m.Ready ⟨.call (.condWait c.val), level⟩ →
    (∃ m', m.step ⟨.call (.condWait c.val), level⟩ = .ok (m', none) ∧ Sleeps m m' c p) ∨
      m.queue .runQueue = [p] ∧ m.queue (.lock (m.condLock c)) = [] ∧
        ∃ line, m.step ⟨.call (.condWait c.val), level⟩ = .error (.exitsim line)
  /-- Interrupts are disabled at each write from the first one to the sleep. -/
  masked : ∀ level m', m.Ready ⟨.call (.condWait c.val), level⟩ →
    m.unexposed.step ⟨.call (.condWait c.val), level⟩ = .ok (m', none) →
      m'.kernel.intrs = 15 ∧ m'.kernel.exposed = false
  signal : ∀ p level, m.Owns c p → m.Ready ⟨.call (.condSignal c.val), level⟩ →
    ∃ m', m.step ⟨.call (.condSignal c.val), level⟩ =
        .ok (m', some (.condSignal c.val, SYNC_SUCCESS)) ∧
      Wakes m.system m'.system c ((m.queue (.cond c)).take 1) ∧ m'.Owns c p
  broadcast : ∀ p level, m.Owns c p → m.Ready ⟨.call (.condBroadcast c.val), level⟩ →
    ∃ m', m.step ⟨.call (.condBroadcast c.val), level⟩ =
        .ok (m', some (.condBroadcast c.val, SYNC_SUCCESS)) ∧
      Wakes m.system m'.system c (m.queue (.cond c)) ∧ m'.Owns c p
  only : ∀ lab m' p, m.Step lab m' → p ∈ m.queue (.cond c) → p ∉ m'.queue (.cond c) →
    Signals c ⟨m, lab, m'⟩
  /-- A wait comes back after a later signal, and its process owns the lock. -/
  returns : ∀ p level m1 tr m2 e n m3, m.Owns c p →
    m.Step (⟨.call (.condWait c.val), level⟩, none) m1 → Run Machine.Step m1 tr m2 →
    m2.kernel.currentPCB = some p → m2.Step (e, some (.condWait c.val, n)) m3 →
      (∃ mv ∈ tr, Signals c mv) ∧ n = SYNC_SUCCESS ∧
        (m3.kernel.locks (m.condLock c)).pid = p.val

theorem Good.condLock_eq (h : Good m) (hs : m.Step lab m')
    (hi : (m.kernel.conds c).inuse = true) : m'.kernel.conds c = m.kernel.conds c := by
  obtain ⟨_, v, hv⟩ := (h.step hs).1
  exact (h.inv.grows hv).conds c hi

/-- A process that wakes others keeps the lock, and goes on. -/
theorem Good.owns_wakes (h : Good m) (hs : m.Step lab m') (hi : (m.kernel.conds c).inuse = true)
    (hp : m.Owns c p) {woken : List Pid} (hw : Wakes m.system m'.system c woken) :
    m'.Owns c p := by
  obtain ⟨hcur, hpid⟩ := hp
  obtain ⟨ps, hq⟩ := current_cons (h.current ▸ hcur)
  refine ⟨?_, ?_⟩
  · rw [(h.step hs).2.good.current, System.current, hw.run, hq]
    rfl
  · have hlocks : m'.kernel.locks = m.kernel.locks := hw.locks
    rw [hlocks, Machine.condLock, h.condLock_eq hs hi]
    exact hpid

/-- A process that went to sleep is on the queue until it is woken. -/
theorem Good.wait_run (h : Good m) (hi : (m.kernel.conds c).inuse = true)
    (hp : p ∈ m.queue (.cond c)) {tr : List (Move Machine Label)} (hr : Run Machine.Step m tr m') :
    Good m' ∧ m'.kernel.conds c = m.kernel.conds c ∧
      (p ∈ m'.queue (.cond c) ∨ ∃ mv ∈ tr, Signals c mv) := by
  refine hr.rule (I := fun tr t => Good t ∧ t.kernel.conds c = m.kernel.conds c ∧
    (p ∈ t.queue (.cond c) ∨ ∃ mv ∈ tr, Signals c mv)) ⟨h, rfl, .inl hp⟩ ?_
  rintro tr t lab u _ ⟨hg, hconds, hmem⟩ hs
  have hit : (t.kernel.conds c).inuse = true := by rw [hconds, hi]
  refine ⟨(hg.step hs).2.good, (hg.condLock_eq hs hit).trans hconds, ?_⟩
  rcases hmem with hmem | ⟨mv, hmv, hsig⟩
  · by_cases hu : p ∈ u.queue (.cond c)
    · exact .inl hu
    · obtain ⟨⟨_, v, hv⟩, _⟩ := hg.step hs
      obtain ⟨hevent, x, hx, hown⟩ := leaves_cond hit hv hmem hu
      exact .inr ⟨⟨t, lab, u⟩, by simp, hevent, x, hg.current ▸ hx, hown⟩
  · exact .inr ⟨mv, by simp [hmv], hsig⟩

theorem condition_variable_semantics (h : Reachable m) (hi : (m.kernel.conds c).inuse = true)
    (hl : (m.kernel.locks (m.condLock c)).inuse = true) : CondOk m c := by
  have hg := h.good
  refine ⟨fun p level hp hr => hg.condWait_step hi hl hr hp, fun level m' hr hs => ?_,
    fun p level hp hr => ?_, fun p level hp hr => ?_, fun lab m' p hs hp hn => ?_,
    fun p level m1 tr m2 e n m3 hp hs hr hcur hs' => ?_⟩
  · have hsu : m.unexposed.Step (⟨.call (.condWait c.val), level⟩, none) m' := ⟨hr, hs⟩
    exact (hg.unexposed.step hsu).2.masked (.inl ⟨_, rfl⟩) rfl
  · obtain ⟨m', hs, hw⟩ := hg.condSignal_step hi hr hp
    have hst : m.Step (⟨.call (.condSignal c.val), level⟩, some (_, SYNC_SUCCESS)) m' := ⟨hr, hs⟩
    exact ⟨m', hs, hw, hg.owns_wakes hst hi hp hw⟩
  · obtain ⟨m', hs, hw⟩ := hg.condBroadcast_step hi hr hp
    have hst : m.Step (⟨.call (.condBroadcast c.val), level⟩, some (_, SYNC_SUCCESS)) m' :=
      ⟨hr, hs⟩
    exact ⟨m', hs, hw, hg.owns_wakes hst hi hp hw⟩
  · obtain ⟨⟨_, v, hv⟩, _⟩ := hg.step hs
    obtain ⟨hevent, x, hx, hown⟩ := leaves_cond hi hv hp hn
    exact ⟨hevent, x, hg.current ▸ hx, hown⟩
  · -- the wait has begun, and the process is on the queue
    have hmem : p ∈ m1.queue (.cond c) := by
      rcases hg.condWait_step hi hl hs.1 hp with ⟨m1', hs1, hsl⟩ | ⟨_, _, line, herr⟩
      · obtain ⟨rfl, _⟩ := Prod.mk.inj (Except.ok.inj (hs.2.symm.trans hs1))
        rw [hsl.cond]
        simp
      · rw [hs.2] at herr
        cases herr
    have hconds1 := hg.condLock_eq hs hi
    obtain ⟨hg2, hconds2, hsig⟩ := (hg.step hs).2.good.wait_run (by rw [hconds1, hi]) hmem hr
    have hconds := hconds2.trans hconds1
    have hl2 : (m2.kernel.locks (m.condLock c)).inuse = true :=
      (hr.invariant (I := fun t => Good t ∧ (t.kernel.locks (m.condLock c)).inuse = true)
        (fun _ _ _ ht hst => ⟨(ht.1.step hst).2.good, ht.1.lock_inuse hst ht.2⟩)
        ⟨(hg.step hs).2.good, hg.lock_inuse hs hl⟩).2
    have hcur2 : m2.system.current = some p := hg2.current ▸ hcur
    obtain ⟨⟨_, v, hv⟩, _⟩ := hg2.step hs'
    obtain rfl := condWait_value (by rw [system_conds, hconds, hi]) hv
    refine ⟨hsig.resolve_left (hg2.inv.waits_none hcur2 rfl), rfl, ?_⟩
    exact slot?_eq_some.mp
      (hg2.inv.gets_step hl2 hv hcur2 (.inr ⟨c, by rw [system_conds, hconds]; rfl, rfl⟩))

/-- A process waits while two others wait for the lock. -/
def condRun : List Event :=
  [.fork true true, .fork true true, .fork true true, .call .lockCreate, .call (.condCreate 0),
    .call (.lockAcquire 0), .timer, .call (.lockAcquire 0), .call (.lockAcquire 0)]

theorem condition_variable_of_a_run : ∃ m, Reachable m ∧ m.Owns 0 31 ∧
    m.queue (.lock 0) = [30, 29] ∧ CondOk m 0 := by
  obtain ⟨m, hm, hc, hi, hl, hpid, hq⟩ := exists_reachable condRun
    (fun a => a.current = some 31 ∧ (a.conds 0).inuse = true ∧
      (a.locks (a.conds 0).lock).inuse = true ∧ (a.locks (a.conds 0).lock).pid = 31 ∧
      a.queue (.lock 0) = [30, 29]) (by decide +kernel)
  exact ⟨m, hm, ⟨hm.good.current ▸ hc, hpid⟩, hq, condition_variable_semantics hm hi hl⟩

end dlxos
