-- The invariant of the system is kept by each step. So it holds in each
-- state of each run.
import DlxOs.Objects

namespace dlxos

open Function

variable {a a' b : System} {p : Pid} {q : KQueue} {v : Int} {l : LockId} {s : SemId} {c c' : Call}
  {res : Result} {r : Return} {home : Pid → KQueue} {waits : Pid → Option KQueue}

/-- A lock that was created: processes wait only where there is an owner, and
a process that was woken in an acquire is the owner. -/
structure LockOk (a : System) (l : LockId) : Prop where
  pid : (a.locks l).PidOk
  view : (a.lockView l).Ok
  woken : ∀ p, a.StoppedOn p (.lock l) → p ∉ a.queue (.lock l) → (a.locks l).pid = p.val

/-- The invariant of the system. -/
structure Inv (a : System) : Prop where
  sleepers : ∃ home waits, Sleepers a home waits
  sems : ∀ s, (a.sems s).inuse = true → SemOk a s
  locks : ∀ l, (a.locks l).inuse = true → LockOk a l

/-! ## Objects stay created -/

theorem Grows.setSem {x : Sem} (h : (a.sems s).inuse = true → x.inuse = true) :
    a.Grows (a.setSem s x) := by
  refine ⟨fun r hr => ?_, fun _ => id, fun _ _ => rfl⟩
  by_cases hrs : r = s
  · subst hrs; simpa using h hr
  · simpa [hrs] using hr

theorem Grows.setLock {x : Lock} (h : (a.locks l).inuse = true → x.inuse = true) :
    a.Grows (a.setLock l x) := by
  refine ⟨fun _ => id, fun r hr => ?_, fun _ _ => rfl⟩
  by_cases hrl : r = l
  · subst hrl; simpa using h hr
  · simpa [hrl] using hr

theorem Grows.setCond {k : CondId} {x : Cond} (h : (a.conds k).inuse = false) :
    a.Grows (a.setCond k x) := by
  refine ⟨fun _ => id, fun _ => id, fun r hr => ?_⟩
  have : r ≠ k := by
    rintro rfl
    rw [h] at hr
    cases hr
  simp [this]

theorem Sleepers.setSem (h : Sleepers a home waits) {x : Sem}
    (hx : (a.sems s).inuse = true → x.inuse = true) : Sleepers (a.setSem s x) home waits :=
  h.grow (Grows.setSem hx) rfl rfl

theorem Sleepers.setLock (h : Sleepers a home waits) {x : Lock}
    (hx : (a.locks l).inuse = true → x.inuse = true) : Sleepers (a.setLock l x) home waits :=
  h.grow (Grows.setLock hx) rfl rfl

/-! ## Each process is where it belongs -/

/-- The running process keeps running while others wake up. -/
theorem run_of_wake (hq : q.isProc = false) (hp : p ∈ a.queue .runQueue) :
    p ∈ (a.wake q).queue .runQueue := by
  rw [System.wake_run hq]
  exact List.mem_append_left _ hp

theorem Sleepers.wakeAll (h : Sleepers a home waits) (hq : q.isProc = false) (n : Nat) :
    ∃ home' waits', Sleepers (System.wakeAll q n a) home' waits' := by
  induction n generalizing a home waits with
  | zero => exact ⟨home, waits, h⟩
  | succ n ih =>
    obtain ⟨home', waits', h'⟩ := h.wake hq
    exact ih h'

theorem Sleepers.lockGive (h : Sleepers a home waits) (l : LockId) :
    (∃ home' waits', Sleepers (a.lockGive l) home' waits') := by
  unfold System.lockGive
  split
  · exact ⟨home, waits, h.setLock fun h => h⟩
  · obtain ⟨home', waits', h'⟩ := h.wake (q := .lock l) rfl
    exact ⟨home', waits', h'.setLock fun h => by simpa using h⟩

theorem run_of_lockGive (hp : p ∈ a.queue .runQueue) :
    p ∈ (a.lockGive l).queue .runQueue := by
  unfold System.lockGive
  split
  · exact hp
  · exact run_of_wake rfl hp

theorem Sleepers.returns {n : Int} (h : Sleepers b home waits) (hp : p ∈ b.queue .runQueue) :
    ∃ home' waits', Sleepers (b.setStopped p ((Result.returns n).stop c)) home' waits' :=
  ⟨home, waits, h.resumed hp⟩

theorem Sleepers.acquires (stop : Stop) (h : Sleepers a home waits)
    (hp : p ∈ a.queue .runQueue) (hm : a.Matches c stop) (hl : (a.locks l).inuse = true)
    (hq : a.stopQueue stop = .lock l) (hc : a.Acquires p l stop b res) :
    ∃ home' waits', Sleepers (b.setStopped p (res.stop c)) home' waits' := by
  cases hc with
  | owned => exact h.returns hp
  | sleeps => exact ⟨_, _, h.slept hp hm hq rfl hl⟩
  | takes => exact (h.setLock fun h => by simpa using h).returns hp

theorem Sleepers.semSignal (h : Sleepers a home waits) (hp : p ∈ a.queue .runQueue) :
    ∃ home' waits', Sleepers (a.semSignal s) home' waits' ∧
      p ∈ (a.semSignal s).queue .runQueue := by
  unfold System.semSignal
  simp only
  split
  · obtain ⟨home', waits', h'⟩ := h.wake (q := .sem s) rfl
    exact ⟨home', waits', h'.setSem fun h => by simpa using h, run_of_wake (q := .sem s) rfl hp⟩
  · exact ⟨home, waits, h.setSem fun h => by simpa using h, hp⟩

/-- Each call leaves the processes where they belong. -/
theorem Sleepers.calls (h : Sleepers a home waits) (hp : p ∈ a.queue .runQueue)
    (hc : a.Calls p v c b res) :
    ∃ home' waits', Sleepers (b.setStopped p (res.stop c)) home' waits' := by
  cases hc with
  | unnamed | lockRefused | signalRefused | broadcastRefused | shareCreatePage | shareMapPage =>
    exact h.returns hp
  | semCreate hu => exact (h.setSem fun _ => rfl).returns hp
  | semSleeps hs hn hrun => exact ⟨_, _, h.slept hp hs rfl rfl (sem?_some.mp hs).2⟩
  | semTakes hs hn => exact (h.setSem fun h => by simpa using h).returns hp
  | semSignal hs =>
    obtain ⟨home', waits', h', hp'⟩ := h.semSignal hp
    exact h'.returns hp'
  | lockCreate hu => exact (h.setLock fun _ => rfl).returns hp
  | lockAcquire hl hb => exact h.acquires (.lockAcquire _) hp hl (lock?_some.mp hl).2 rfl hb
  | lockRelease hl ho =>
    obtain ⟨home', waits', h'⟩ := h.lockGive _
    exact h'.returns (run_of_lockGive hp)
  | condCreate hl hu =>
    exact (h.grow (Grows.setCond (firstUnused_some hu)) rfl rfl).returns hp
  | @condWait n k hk ho hi hrun =>
    obtain ⟨home', waits', h'⟩ := h.lockGive (a.conds k).lock
    have hsame := System.Same.lockGive a (a.conds k).lock (q := .cond k) (by simp)
    refine ⟨_, _, h'.slept (run_of_lockGive hp) (c := .condWait n) ?_ rfl rfl ?_⟩
    · rw [System.Matches, cond?_some, hsame.1]
      exact cond?_some.mp hk
    · rw [System.created, hsame.1]
      exact (cond?_some.mp hk).2
  | condWaitUnlocked hk ho hi hrun => exact ⟨_, _, h.slept hp hk rfl rfl (cond?_some.mp hk).2⟩
  | condSignal hk ho =>
    obtain ⟨home', waits', h'⟩ := h.wake (q := .cond _) rfl
    exact h'.returns (run_of_wake rfl hp)
  | @condBroadcast n k hk ho =>
    obtain ⟨home', waits', h'⟩ := h.wakeAll (q := .cond k) rfl (a.queue (.cond k)).length
    refine h'.returns ?_
    rw [System.wakeAll_run _ rfl]
    exact List.mem_append_left _ hp

theorem Sleepers.resumes {stop : Stop} (h : Sleepers a home waits)
    (hp : p ∈ a.queue .runQueue) (hs : a.stopped p = some (c, stop))
    (hc : a.Resumes p stop b res) :
    ∃ home' waits', Sleepers (b.setStopped p (res.stop c)) home' waits' := by
  have hm := h.matched p c stop hs
  cases hc with
  | returns => exact h.returns hp
  | acquires hi hb =>
    cases c with
    | condWait n => exact h.acquires (.condAcquire _) hp ⟨hm, hi⟩ hi rfl hb
    | _ => cases hm

/-- Each step leaves the processes where they belong. -/
theorem Sleepers.step {e : Event} (h : Sleepers a home waits) (hr : a.Ready e)
    (hs : a.step v e = some (a', r)) : ∃ home' waits', Sleepers a' home' waits' := by
  have hrun : ∀ {p}, p ∈ a.queue .runQueue → home p = .runQueue := fun {p} hp =>
    (h.placed.mem_proc rfl p).mp hp
  have hfree : ∀ {p}, p ∈ a.queue .freepcbs → home p = .freepcbs := fun {p} hp =>
    (h.placed.mem_proc rfl p).mp hp
  cases System.steps hs with
  | timer hq | contextSwitch hq =>
    exact ⟨_, _, h.move (hrun (by simp [hq])) (by simp) (.inr rfl) (by simp)⟩
  | @exit p p' ps hq =>
    obtain ⟨_, hcur, hstop⟩ := hr
    obtain rfl := Option.some.inj ((current_eq hq).symm.trans hcur)
    have h' := h.move (hrun (p := p) (by simp [hq])) (by simp) (.inl rfl) fun _ => hstop
    have hne : p' ≠ p := by
      have := h.placed.nodup .runQueue
      rw [hq, List.nodup_cons] at this
      rintro rfl
      exact this.1 (by simp)
    have hp' := hrun (p := p') (by simp [hq])
    exact ⟨_, _, h'.move (by simpa [hne] using hp') (by simp) (.inr rfl) (by simp)⟩
  | @forkFails p ps hq =>
    have hp := hfree (p := p) (by simp [hq])
    exact ⟨_, _, h.move hp (by simp) (.inl rfl) fun _ => h.free p hp⟩
  | fork hq hl =>
    exact ⟨_, _, h.move (hfree (by simp [hq])) (by simp) (.inr rfl) (by simp)⟩
  | call hq hc => exact h.calls (by simp [hq]) hc
  | resume hq hstop hc => exact h.resumes (by simp [hq]) hstop hc

/-! ## New objects -/

theorem step_semCreate {count : Int} (hs : a.step v (.call (.semCreate count)) = some (a', r)) :
    r = some (.semCreate count, SYNC_FAIL) ∨
      ∃ s : SemId, (a.sems s).inuse = false ∧ r = some (.semCreate count, (s.val : Int)) ∧
        a'.sems s = ⟨toInt32 count, true⟩ ∧ a'.queue = a.queue := by
  obtain ⟨p, b, res, hp, hc, rfl, rfl⟩ := step_call hs
  cases hc with
  | unnamed => exact .inl rfl
  | semCreate hu => exact .inr ⟨_, firstUnused_some hu, rfl, by simp, rfl⟩

theorem step_lockCreate (hs : a.step v (.call .lockCreate) = some (a', r)) :
    r = some (.lockCreate, SYNC_FAIL) ∨
      ∃ l : LockId, (a.locks l).inuse = false ∧ r = some (.lockCreate, (l.val : Int)) ∧
        a'.locks l = ⟨-1, true⟩ ∧ a'.queue = a.queue := by
  obtain ⟨p, b, res, hp, hc, rfl, rfl⟩ := step_call hs
  cases hc with
  | unnamed => exact .inl rfl
  | lockCreate hu => exact .inr ⟨_, firstUnused_some hu, rfl, by simp, rfl⟩

/-- Only `SemCreate` makes a semaphore. -/
theorem sem_created {e : Event} (hs : a.step v e = some (a', r)) (hi : (a.sems s).inuse = false)
    (hi' : (a'.sems s).inuse = true) :
    ∃ count, e = .call (.semCreate count) ∧ r = some (.semCreate count, (s.val : Int)) ∧
      a'.sems s = ⟨toInt32 count, true⟩ ∧ a'.queue = a.queue := by
  have ht : KQueue.sem s ∈ a.touches e := by
    by_contra ht
    have := (System.Same.step hs ht).1
    rw [this, hi] at hi'
    cases hi'
  have hunmade : ∀ h, a.sem? h ≠ some s := by
    intro h hs?
    rw [(sem?_some.mp hs?).2] at hi
    cases hi
  cases e with
  | call c =>
    obtain ⟨p, b, res, hp, hc, rfl, rfl⟩ := step_call hs
    cases hc with
    | semCreate hu =>
      obtain rfl : s = _ := by simpa [System.touches, System.callTouches, hu] using ht
      exact ⟨_, rfl, rfl, by simp, rfl⟩
    | semSleeps hs? | semTakes hs? | semSignal hs? =>
      obtain rfl : s = _ := by simpa [System.touches, System.callTouches, hs?] using ht
      exact absurd hs? (hunmade _)
    | unnamed h => simp [System.touches, h] at ht
    | condCreate hl? hu => simp [System.touches, System.callTouches, hl?, hu] at ht
    | _ => simp [System.touches, System.callTouches, *] at ht
  | resume =>
    simp only [System.touches] at ht
    split at ht <;> simp at ht
  | _ => simp [System.touches] at ht

/-- Only `LockCreate` makes a lock. -/
theorem lock_created {e : Event} (hs : a.step v e = some (a', r))
    (hi : (a.locks l).inuse = false) (hi' : (a'.locks l).inuse = true) :
    e = .call .lockCreate ∧ r = some (.lockCreate, (l.val : Int)) ∧ a'.locks l = ⟨-1, true⟩ ∧
      a'.queue = a.queue := by
  have hne : a'.locks l ≠ a.locks l := by
    intro he
    rw [he, hi] at hi'
    cases hi'
  have ht : KQueue.lock l ∈ a.touches e := by
    by_contra ht
    exact hne (System.Same.step hs ht).1
  have hunmade : ∀ h, a.lock? h ≠ some l := by
    intro h hl?
    rw [(lock?_some.mp hl?).2] at hi
    cases hi
  cases e with
  | call c =>
    obtain ⟨p, b, res, hp, hc, rfl, rfl⟩ := step_call hs
    cases hc with
    | lockCreate hu =>
      obtain rfl : l = _ := by simpa [System.touches, System.callTouches, hu] using ht
      exact ⟨rfl, rfl, by simp, rfl⟩
    | lockAcquire hl? | lockRelease hl? | lockRefused hl? =>
      obtain rfl : l = _ := by simpa [System.touches, System.callTouches, hl?] using ht
      exact absurd hl? (hunmade _)
    | condWait hk ho hmade =>
      obtain rfl : l = (a.conds _).lock := by
        simpa [System.touches, System.callTouches, hk] using ht
      rw [hmade] at hi
      cases hi
    | condWaitUnlocked => exact absurd rfl hne
    | unnamed h => simp [System.touches, h] at ht
    | condCreate hl? hu => simp [System.touches, System.callTouches, hl?, hu] at ht
    | _ => simp [System.touches, System.callTouches, *] at ht
  | resume =>
    obtain ⟨p, c, stop, b, res, hr, hc, rfl, _⟩ := step_resume hs
    cases hc with
    | returns => exact absurd rfl hne
    | acquires hmade hb =>
      obtain rfl : l = (a.conds _).lock := by simpa [System.touches, hr] using ht
      rw [hmade] at hi
      cases hi
  | _ => simp [System.touches] at ht

/-- Only `CondCreate` makes a condition variable. -/
theorem cond_created {e : Event} {k : CondId} (hs : a.step v e = some (a', r))
    (hi : (a.conds k).inuse = false) (hi' : (a'.conds k).inuse = true) :
    ∃ h, e = .call (.condCreate h) ∧ r = some (.condCreate h, (k.val : Int)) := by
  have hne : a'.conds k ≠ a.conds k := by
    intro he
    rw [he, hi] at hi'
    cases hi'
  have ht : KQueue.cond k ∈ a.touches e := by
    by_contra ht
    exact hne (System.Same.step hs ht).1
  have hunmade : ∀ h, a.cond? h ≠ some k := by
    intro h hc?
    rw [(cond?_some.mp hc?).2] at hi
    cases hi
  cases e with
  | call c =>
    obtain ⟨p, b, res, hp, hc, rfl, rfl⟩ := step_call hs
    cases hc with
    | condCreate hl? hu =>
      obtain rfl : k = _ := by simpa [System.touches, System.callTouches, hl?, hu] using ht
      exact ⟨_, rfl, rfl⟩
    | condWait hk? | condWaitUnlocked hk? | condSignal hk? | signalRefused hk?
    | condBroadcast hk? | broadcastRefused hk? =>
      obtain rfl : k = _ := by simpa [System.touches, System.callTouches, hk?] using ht
      exact absurd hk? (hunmade _)
    | unnamed h => simp [System.touches, h] at ht
    | _ => simp [System.touches, System.callTouches, *] at ht
  | resume =>
    simp only [System.touches] at ht
    split at ht <;> simp at ht
  | _ => simp [System.touches] at ht

/-! ## Where a step stops -/

theorem acquires_sleeps {stop stop' : Stop} (hc : a.Acquires p l stop b (.sleeps stop')) :
    b = a.slept p (.lock l) ∧ stop' = stop := by
  cases hc with
  | sleeps => exact ⟨rfl, rfl⟩

/-- A process that goes to sleep is on the queue of its stop. -/
theorem call_sleeps {stop : Stop} (hc : a.Calls p v c b (.sleeps stop)) :
    p ∈ b.queue (b.stopQueue stop) := by
  cases hc with
  | semSleeps => simp [System.stopQueue, System.slept_waiting]
  | lockAcquire hl hb =>
    obtain ⟨rfl, rfl⟩ := acquires_sleeps hb
    simp [System.stopQueue, System.slept_waiting]
  | condWait => simp [System.stopQueue, System.slept_waiting]
  | condWaitUnlocked => simp [System.stopQueue, System.slept_waiting]

theorem resumes_sleeps {stop stop' : Stop} (hc : a.Resumes p stop b (.sleeps stop')) :
    p ∈ b.queue (b.stopQueue stop') := by
  cases hc with
  | acquires hi hb =>
    obtain ⟨rfl, rfl⟩ := acquires_sleeps hb
    simp [System.stopQueue, System.slept_waiting]

theorem sleeps_on {stop : Stop} (h : ∀ stop, res = .sleeps stop → p ∈ b.queue (b.stopQueue stop))
    (hs : (b.setStopped p (res.stop c)).stopped p = some (c', stop)) :
    p ∈ b.queue (b.stopQueue stop) := by
  cases res with
  | returns n => simp [Result.stop] at hs
  | sleeps stop' =>
    obtain ⟨_, rfl⟩ : c = c' ∧ stop' = stop := by simpa [Result.stop] using hs
    exact h stop' rfl

/-- A step changes the stop of the running process only, and where it leaves
one, the process is on its queue. -/
theorem step_stopped {e : Event} (hs : a.step v e = some (a', r)) (p : Pid) :
    a'.stopped p = a.stopped p ∨ a.current = some p ∧
      ∀ c stop, a'.stopped p = some (c, stop) → p ∈ a'.queue (a'.stopQueue stop) := by
  cases System.steps hs with
  | timer | contextSwitch | exit | forkFails | fork => exact .inl rfl
  | @call p' ps c b res hq hc =>
    by_cases he : p = p'
    · subst he
      exact .inr ⟨current_eq hq, fun c' stop h => sleeps_on (b := b) (c := c)
        (fun stop hr => call_sleeps (by rw [← hr]; exact hc)) h⟩
    · left
      rw [System.setStopped_stopped, update_of_ne he, (System.Keeps.calls hc).stopped]
  | @resume p' ps c stop b res hq hstop hc =>
    by_cases he : p = p'
    · subst he
      exact .inr ⟨current_eq hq, fun c' stop h => sleeps_on (b := b) (c := c)
        (fun stop hr => resumes_sleeps (by rw [← hr]; exact hc)) h⟩
    · left
      rw [System.setStopped_stopped, update_of_ne he, (System.Keeps.resumes hc).stopped]

/-! ## The invariant -/

theorem Inv.waits_none (h : Inv a) (hp : a.current = some p) (hq : q.isProc = false) :
    p ∉ a.queue q := by
  obtain ⟨home, waits, hsl⟩ := h.sleepers
  obtain ⟨ps, hrun⟩ := current_cons hp
  rw [hsl.placed.mem_wait hq, (hsl.running (p := p) (by simp [hrun])).2]
  simp

/-- Objects that were never created have no queue. -/
theorem Inv.unused (h : Inv a) (hq : q.isProc = false) (hc : a.created q = false) :
    a.queue q = [] := by
  obtain ⟨home, waits, hsl⟩ := h.sleepers
  rw [List.eq_nil_iff_forall_not_mem]
  intro p hp
  rw [hsl.created p q ((hsl.placed.mem_wait hq p).mp hp)] at hc
  cases hc

theorem callLockOp_acquire {op : fifo.LockOp Pid} (h : a.callLockOp l p c = some op) :
    op = .acquire p ∨ op = .release p := by
  unfold System.callLockOp at h
  split at h
  · split at h
    · exact .inl (Option.some.inj h).symm
    · cases h
  · split at h
    · exact .inr (Option.some.inj h).symm
    · cases h
  · split at h
    · exact .inr (Option.some.inj h).symm
    · cases h
  · cases h

/-- Only the running process operates on a lock. -/
theorem lockOp_current {e : Event} {op : fifo.LockOp Pid} (h : a.lockOp l e = some op) :
    ∃ p, a.current = some p ∧ (op = .acquire p ∨ op = .release p) := by
  unfold System.lockOp at h
  split at h
  · obtain ⟨p, hp, h⟩ := Option.bind_eq_some_iff.mp h
    exact ⟨p, hp, callLockOp_acquire h⟩
  · split at h
    · rename_i p _ _ hr
      split at h
      · exact ⟨p, (resuming_some.mp hr).1, .inl (Option.some.inj h).symm⟩
      · cases h
    · cases h
  · cases h

theorem Inv.admits (h : Inv a) {e : Event} {op : fifo.LockOp Pid} (ho : a.lockOp l e = some op) :
    (a.lockView l).Admits op := by
  obtain ⟨p, hp, rfl | rfl⟩ := lockOp_current ho
  · exact h.waits_none hp (q := .lock l) rfl
  · trivial

/-- Objects stay created, and a condition variable keeps its lock. -/
theorem Inv.grows (h : Inv a) {e : Event} (hs : a.step v e = some (a', r)) : a.Grows a' := by
  refine ⟨fun s hi => (sem_step hi (h.sems s hi) hs).1,
    fun l hi => (lock_step hi (h.locks l hi).pid hs).2.2, fun k hk => ?_⟩
  cases e with
  | call c =>
    obtain ⟨p, b, res, _, hc, rfl, _⟩ := step_call hs
    exact (System.Keeps.calls hc).conds k hk
  | resume =>
    obtain ⟨p, c, stop, b, res, _, hc, rfl, _⟩ := step_resume hs
    exact (System.Keeps.resumes hc).conds k hk
  | _ => exact (System.Same.step (q := .cond k) hs (by simp [System.touches])).1

theorem Inv.matched (h : Inv a) {stop : Stop} (hp : a.stopped p = some (c, stop)) :
    a.Matches c stop := by
  obtain ⟨home, waits, hsl⟩ := h.sleepers
  exact hsl.matched p c stop hp

/-- A process stops only on the queue of an object that was created. -/
theorem Inv.stopped_created (h : Inv a) (hp : a.StoppedOn p q) : a.created q = true := by
  obtain ⟨c, stop, hs, rfl⟩ := hp
  have hm := h.matched hs
  unfold System.Matches at hm
  split at hm
  · exact (sem?_some.mp hm).2
  · exact (lock?_some.mp hm).2
  · exact (cond?_some.mp hm).2
  · exact hm.2
  · cases hm

/-- A process stopped where it was before, or it is on its queue now. -/
theorem Inv.stoppedOn_step (h : Inv a) {e : Event} (hs : a.step v e = some (a', r))
    (hp : a'.StoppedOn p q) : a.StoppedOn p q ∨ p ∈ a'.queue q := by
  obtain ⟨c, stop, hstop, rfl⟩ := hp
  rcases step_stopped hs p with he | ⟨_, hon⟩
  · rw [he] at hstop
    exact .inl ⟨c, stop, hstop, (((h.grows hs).matches (h.matched hstop)).2).symm⟩
  · exact .inr (hon c stop hstop)

/-- A process that stopped in the kernel releases nothing. -/
theorem release_ready {e : Event} (hr : a.Ready e) (ho : a.lockOp l e = some (.release p)) :
    a.stopped p = none := by
  unfold System.lockOp at ho
  split at ho
  · obtain ⟨p', hp', ho⟩ := Option.bind_eq_some_iff.mp ho
    obtain ⟨p'', hp'', hnone⟩ := hr
    obtain rfl := Option.some.inj (hp'.symm.trans hp'')
    have : p' = p := by
      unfold System.callLockOp at ho
      split at ho <;> first | cases ho | split at ho <;> cases ho
      all_goals rfl
    rw [← this]
    exact hnone
  · split at ho
    · split at ho <;> cases ho
    · cases ho
  · cases ho

theorem Inv.step_lock {e : Event} (h : Inv a) (hr : a.Ready e) (hs : a.step v e = some (a', r))
    (hl : (a'.locks l).inuse = true) : LockOk a' l := by
  rcases hi : (a.locks l).inuse with _ | _
  · -- the lock is new
    obtain ⟨_, _, hlock, hqueue⟩ := lock_created hs hi hl
    have hnone : a'.queue (.lock l) = [] := by rw [hqueue]; exact h.unused rfl hi
    refine ⟨.inl (by rw [hlock]), ?_, ?_⟩
    · refine ⟨?_, ?_, fun _ => hnone⟩
      all_goals simp [System.lockView, hnone]
    · intro p hp _
      rcases h.stoppedOn_step hs hp with hon | hmem
      · have := h.stopped_created hon
        rw [System.created, hi] at this
        cases this
      · simp [hnone] at hmem
  · obtain ⟨hpid, hview, hwoken⟩ := h.locks l hi
    obtain ⟨hv, hpid', _⟩ := lock_step hi hpid hs
    refine ⟨hpid', ?_, ?_⟩
    · rw [hv]
      rcases ho : a.lockOp l e with _ | op
      · exact hview
      · exact hview.apply (h.admits ho)
    · intro p hp hnot
      rcases h.stoppedOn_step hs hp with hon | hmem
      · rw [← lockView_owner]
        change p ∉ (a'.lockView l).waiting at hnot
        rw [hv] at hnot ⊢
        rcases ho : a.lockOp l e with _ | op
        · rw [ho] at hnot
          exact lockView_owner.mpr (hwoken p hon hnot)
        · rw [ho] at hnot
          by_cases hw : p ∈ (a.lockView l).waiting
          · exact (fifo.Lock.waiting_apply hw).resolve_left hnot
          · refine fifo.Lock.owner_apply (lockView_owner.mpr (hwoken p hon hw)) ?_
            rintro rfl
            obtain ⟨c, stop, hstop, _⟩ := hon
            rw [release_ready hr ho] at hstop
            cases hstop
      · exact absurd hmem hnot

theorem Inv.step_sem {e : Event} (h : Inv a) (hs : a.step v e = some (a', r))
    (hi' : (a'.sems s).inuse = true) : SemOk a' s := by
  rcases hi : (a.sems s).inuse with _ | _
  · -- the semaphore is new
    obtain ⟨count, _, _, hsem, hqueue⟩ := sem_created hs hi hi'
    have hnone : a'.queue (.sem s) = [] := by rw [hqueue]; exact h.unused rfl hi
    obtain ⟨h1, h2⟩ := toInt32_range count
    refine ⟨by rw [hsem]; exact h1, by rw [hsem]; exact h2, fun hne => ?_⟩
    exact absurd hnone hne
  · exact (sem_step hi (h.sems s hi) hs).2.1

/-- Each step keeps the invariant. -/
theorem Inv.step {e : Event} (h : Inv a) (hr : a.Ready e) (hs : a.step v e = some (a', r)) :
    Inv a' := by
  obtain ⟨home, waits, hsl⟩ := h.sleepers
  exact ⟨hsl.step hr hs, fun s hi => h.step_sem hs hi, fun l hl => h.step_lock hr hs hl⟩

end dlxos
