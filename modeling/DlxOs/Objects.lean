-- One semaphore, one lock and one condition variable of the system. A step
-- touches few objects. What it does to a semaphore or to a lock is one
-- operation on a semaphore or a lock that serves in the order of arrival.
import DlxOs.Fifo
import DlxOs.Invariant
import DlxOs.Cases

namespace dlxos

open Function

namespace System

/-! ## What a step leaves alone -/

/-- The stops of the processes stay, and so do the condition variables. -/
structure Keeps (a b : System) : Prop where
  stopped : b.stopped = a.stopped
  conds : ∀ c, (a.conds c).inuse = true → b.conds c = a.conds c

/-- The object of a waiting queue is as before, or the queue of the free
processes. -/
def Same (a a' : System) : KQueue → Prop
  | .sem s => a'.sems s = a.sems s ∧ a'.queue (.sem s) = a.queue (.sem s)
  | .lock l => a'.locks l = a.locks l ∧ a'.queue (.lock l) = a.queue (.lock l)
  | .cond c => a'.conds c = a.conds c ∧ a'.queue (.cond c) = a.queue (.cond c)
  | .freepcbs => a'.queue .freepcbs = a.queue .freepcbs
  | _ => True

end System

variable {a a' : System} {p : Pid} {q : KQueue} {v : Int} {l : LockId} {stop : Stop}
  {res : Result} {c : Call}

theorem System.Keeps.of_eq (h : a'.stopped = a.stopped) (h' : a'.conds = a.conds) : a.Keeps a' :=
  ⟨h, fun _ _ => by rw [h']⟩

theorem System.Keeps.lockGive (a : System) (l : LockId) : a.Keeps (a.lockGive l) := by
  unfold System.lockGive
  split
  · exact .of_eq rfl rfl
  · exact .of_eq (by simp) (by simp)

theorem System.Keeps.acquires (h : a.Acquires p l stop a' res) : a.Keeps a' := by
  cases h <;> exact .of_eq rfl rfl

theorem System.Keeps.calls (h : a.Calls p v c a' res) : a.Keeps a' := by
  cases h with
  | semSignal hs =>
    unfold System.semSignal
    simp only
    split <;> exact .of_eq (by simp) (by simp)
  | lockAcquire hl hb => exact .acquires hb
  | lockRelease hl hp => exact .lockGive a _
  | @condCreate k l c' hl hu =>
    refine ⟨rfl, fun c hc => ?_⟩
    have hne : c ≠ c' := by
      rintro rfl
      rw [firstUnused_some hu] at hc
      cases hc
    simp [hne]
  | @condWait k c hc hp hi hrun =>
    have hgive := System.Keeps.lockGive a (a.conds c).lock
    exact ⟨hgive.stopped, hgive.conds⟩
  | condSignal hc hp | condBroadcast hc hp => exact .of_eq (by simp) (by simp)
  | _ => exact .of_eq rfl rfl

theorem System.Keeps.resumes (h : a.Resumes p stop a' res) : a.Keeps a' := by
  cases h with
  | returns hs => exact .of_eq rfl rfl
  | acquires hi hb => exact .acquires hb

theorem System.Same.refl (a : System) (q : KQueue) : a.Same a q := by
  cases q <;> simp [System.Same]

theorem System.Same.setStopped (h : a.Same a' q) (p : Pid) (x : Option (Call × Stop)) :
    a.Same (a'.setStopped p x) q := by
  cases q <;> exact h

theorem System.Same.move (a : System) (p : Pid) {q r s : KQueue} (hq : q.isProc = true)
    (hr : r.isProc = true) (hs : s = .freepcbs → q ≠ .freepcbs ∧ r ≠ .freepcbs) :
    a.Same (a.move p q r) s := by
  cases s with
  | freepcbs =>
    obtain ⟨h1, h2⟩ := hs rfl
    simp [System.Same, moveLast, Ne.symm h1, Ne.symm h2]
  | _ => simp [System.Same, -System.move_queue, System.move_waiting hq hr]

theorem System.Same.slept (a : System) (p : Pid) {q r : KQueue} (hr : r ≠ q) :
    a.Same (a.slept p q) r := by
  cases r with
  | freepcbs => simp [System.Same, System.slept, moveLast, hr]
  | _ => simp [System.Same, System.slept_waiting, hr]

theorem System.Same.wake (a : System) {q r : KQueue} (hr : r ≠ q) : a.Same (a.wake q) r := by
  cases r with
  | freepcbs =>
    unfold System.wake
    split <;> simp [System.Same, moveLast, hr]
  | _ => simp [System.Same, System.wake_waiting, hr]

theorem System.Same.setSem (a : System) (s : SemId) (x : Sem) (h : q ≠ .sem s) :
    a.Same (a.setSem s x) q := by
  cases q with
  | sem r =>
    have : r ≠ s := fun he => h (he ▸ rfl)
    simp [System.Same, this]
  | _ => simp [System.Same]

theorem System.Same.setLock (a : System) (l : LockId) (x : Lock) (h : q ≠ .lock l) :
    a.Same (a.setLock l x) q := by
  cases q with
  | lock r =>
    have : r ≠ l := fun he => h (he ▸ rfl)
    simp [System.Same, this]
  | _ => simp [System.Same]

theorem System.Same.setCond (a : System) (c : CondId) (x : Cond) (h : q ≠ .cond c) :
    a.Same (a.setCond c x) q := by
  cases q with
  | cond r =>
    have : r ≠ c := fun he => h (he ▸ rfl)
    simp [System.Same, this]
  | _ => simp [System.Same]

theorem System.Same.trans {b : System} (h : a.Same a' q) (h' : a'.Same b q) : a.Same b q := by
  cases q with
  | sem _ | lock _ | cond _ => exact ⟨h'.1.trans h.1, h'.2.trans h.2⟩
  | freepcbs => exact Eq.trans h' h
  | _ => trivial

theorem System.Same.wakeAll (a : System) {q r : KQueue} (hr : r ≠ q) (n : Nat) :
    a.Same (System.wakeAll q n a) r := by
  induction n generalizing a with
  | zero => exact .refl a r
  | succ n ih => exact (System.Same.wake a hr).trans (ih (a.wake q))

theorem System.Same.lockGive (a : System) (l : LockId) (h : q ≠ .lock l) :
    a.Same (a.lockGive l) q := by
  unfold System.lockGive
  split
  · exact System.Same.setLock a l _ h
  · exact (System.Same.wake a h).trans (System.Same.setLock _ l _ h)

theorem System.Same.acquires (hc : a.Acquires p l stop a' res) (h : q ≠ .lock l) :
    a.Same a' q := by
  cases hc with
  | owned hp => exact .refl a q
  | sleeps hp ho hrun => exact System.Same.slept a p h
  | takes ho => exact System.Same.setLock a l _ h

/-- A call changes nothing but what it touches. -/
theorem System.Same.calls (hc : a.Calls p v c a' res) (h : q ∉ a.callTouches c) :
    a.Same a' q := by
  cases hc with
  | unnamed | lockRefused | signalRefused | broadcastRefused | shareCreatePage | shareMapPage =>
    exact .refl a q
  | semCreate hu => exact System.Same.setSem a _ _ (by simpa [System.callTouches, hu] using h)
  | semSleeps hs hn hrun =>
    exact System.Same.slept a p (by simpa [System.callTouches, hs] using h)
  | semTakes hs hn => exact System.Same.setSem a _ _ (by simpa [System.callTouches, hs] using h)
  | @semSignal k s hs =>
    have hne : q ≠ .sem s := by simpa [System.callTouches, hs] using h
    unfold System.semSignal
    simp only
    split
    · exact (System.Same.wake a hne).trans (System.Same.setSem _ _ _ hne)
    · exact System.Same.setSem a _ _ hne
  | lockCreate hu => exact System.Same.setLock a _ _ (by simpa [System.callTouches, hu] using h)
  | lockAcquire hl hb => exact .acquires hb (by simpa [System.callTouches, hl] using h)
  | lockRelease hl hp =>
    exact System.Same.lockGive a _ (by simpa [System.callTouches, hl] using h)
  | condCreate hl hu =>
    exact System.Same.setCond a _ _ (by simpa [System.callTouches, hl, hu] using h)
  | @condWait k c hc hp hi hrun =>
    obtain ⟨h1, h2⟩ : q ≠ .cond c ∧ q ≠ .lock (a.conds c).lock := by
      simpa [System.callTouches, hc] using h
    exact (System.Same.lockGive a _ h2).trans (System.Same.slept _ p h1)
  | @condWaitUnlocked k c hc hp hi hrun =>
    obtain ⟨h1, _⟩ : q ≠ .cond c ∧ q ≠ .lock (a.conds c).lock := by
      simpa [System.callTouches, hc] using h
    exact System.Same.slept a p h1
  | condSignal hc hp => exact System.Same.wake a (by simpa [System.callTouches, hc] using h)
  | condBroadcast hc hp =>
    exact System.Same.wakeAll a (by simpa [System.callTouches, hc] using h) _

/-- The steps of a process begin with the front of the run queue. -/
theorem current_eq {ps : List Pid} (h : a.queue .runQueue = p :: ps) : a.current = some p := by
  simp [System.current, h]

theorem current_cons (h : a.current = some p) : ∃ ps, a.queue .runQueue = p :: ps := by
  rw [System.current, List.head?_eq_some_iff] at h
  exact h

theorem step_call {r : Return} (h : a.step v (.call c) = some (a', r)) :
    ∃ p b res, a.current = some p ∧ a.Calls p v c b res ∧
      a' = b.setStopped p (res.stop c) ∧ r = res.value c := by
  cases System.steps h with
  | call hq hc => exact ⟨_, _, _, current_eq hq, hc, rfl, rfl⟩

theorem resuming_some : a.resuming = some (p, c, stop) ↔
    a.current = some p ∧ a.stopped p = some (c, stop) := by
  simp only [System.resuming, Option.bind_eq_some_iff, Option.map_eq_some_iff, Prod.mk.injEq]
  constructor
  · rintro ⟨p, hc, ⟨c, stop⟩, hs, rfl, rfl, rfl⟩
    exact ⟨hc, hs⟩
  · rintro ⟨hc, hs⟩
    exact ⟨p, hc, _, hs, rfl, rfl⟩

theorem step_resume {r : Return} (h : a.step v .resume = some (a', r)) :
    ∃ p c stop b res, a.resuming = some (p, c, stop) ∧ a.Resumes p stop b res ∧
      a' = b.setStopped p (res.stop c) ∧ r = res.value c := by
  cases System.steps h with
  | resume hq hs hc =>
    exact ⟨_, _, _, _, _, resuming_some.mpr ⟨current_eq hq, hs⟩, hc, rfl, rfl⟩

/-- A step changes nothing but what it touches. -/
theorem System.Same.step {e : Event} {r : Return} (hs : a.step v e = some (a', r))
    (h : q ∉ a.touches e) : a.Same a' q := by
  cases System.steps hs with
  | timer hq | contextSwitch hq => exact System.Same.move a _ rfl rfl (by simp)
  | exit hq =>
    have hne : q ≠ .freepcbs := by simpa [System.touches] using h
    exact (System.Same.move a _ rfl rfl fun he => absurd he hne).trans
      (System.Same.move _ _ rfl rfl fun he => absurd he hne)
  | forkFails hq | fork hq hl =>
    have hne : q ≠ .freepcbs := by simpa [System.touches] using h
    exact System.Same.move a _ rfl rfl fun he => absurd he hne
  | call hq hc => exact (System.Same.calls hc h).setStopped _ _
  | resume hq hs hc =>
    refine System.Same.setStopped ?_ _ _
    cases hc with
    | returns hs => exact .refl a q
    | acquires hi hb =>
      have hres := resuming_some.mpr ⟨current_eq hq, hs⟩
      exact .acquires hb (by simpa [System.touches, hres] using h)

/-! ## One lock -/

namespace System

/-- A lock as a lock that serves in the order of arrival. -/
def lockView (a : System) (l : LockId) : fifo.Lock Pid :=
  ⟨slot? PROCESS_MAX_PROCS (a.locks l).pid, a.queue (.lock l)⟩

/-- What a call by process `p` does to a lock. -/
def callLockOp (a : System) (l : LockId) (p : Pid) : Call → Option (fifo.LockOp Pid)
  | .lockAcquire h => if a.lock? h = some l then some (.acquire p) else none
  | .lockRelease h => if a.lock? h = some l then some (.release p) else none
  | .condWait h =>
    if (a.cond? h).map (fun c => (a.conds c).lock) = some l then some (.release p) else none
  | _ => none

/-- What a step does to a lock. A process that comes back from the queue of a
condition variable acquires the lock again. -/
def lockOp (a : System) (l : LockId) : Event → Option (fifo.LockOp Pid)
  | .call c => a.current.bind fun p => a.callLockOp l p c
  | .resume => match a.resuming with
    | some (p, _, .condWait c) => if (a.conds c).lock = l then some (.acquire p) else none
    | _ => none
  | _ => none

end System

/-- The PID in a lock that was created is -1 or the PID of a process. -/
def Lock.PidOk (x : Lock) : Prop := x.pid = -1 ∨ ∃ p : Pid, x.pid = p.val

theorem lockView_congr (h : a.Same a' (.lock l)) : a'.lockView l = a.lockView l := by
  simp only [System.lockView, h.1, h.2]

@[simp] theorem setStopped_lockView (x : Option (Call × Stop)) :
    (a.setStopped p x).lockView l = a.lockView l := rfl

theorem lockView_owner {p : Pid} : (a.lockView l).owner = some p ↔ (a.locks l).pid = p.val :=
  slot?_eq_some

theorem slot?_neg {max : Nat} {h : Int} (hneg : h < 0) : slot? max h = none := by
  simp [slot?, hneg]

/-- An acquire, one case for each branch of `LockAcquire`. -/
theorem lockAcquire_view (hok : (a.locks l).PidOk) (h : a.Acquires p l stop a' res) :
    a'.lockView l = (a.lockView l).apply (.acquire p) ∧
      (a'.locks l).PidOk ∧ (a'.locks l).inuse = (a.locks l).inuse := by
  cases h with
  | owned hp =>
    refine ⟨?_, hok, rfl⟩
    simp [System.lockView, fifo.Lock.apply, hp]
  | sleeps hp ho hrun =>
    refine ⟨?_, hok, rfl⟩
    obtain ⟨r, hr⟩ : ∃ r : Pid, (a.locks l).pid = r.val := by
      rcases hok with h | h
      · omega
      · exact h
    have hne : r ≠ p := by
      rintro rfl
      exact hp hr
    simp [System.lockView, fifo.Lock.apply, hr, hne, System.slept_waiting]
  | takes ho =>
    have hfree : slot? PROCESS_MAX_PROCS (a.locks l).pid = none := slot?_neg ho
    refine ⟨?_, .inr ⟨p, by simp⟩, by simp⟩
    simp [System.lockView, fifo.Lock.apply, hfree]

/-- A release by the owner. -/
theorem lockGive_view (hp : (a.locks l).pid = p.val) :
    (a.lockGive l).lockView l = (a.lockView l).apply (.release p) ∧
      ((a.lockGive l).locks l).PidOk ∧
      ((a.lockGive l).locks l).inuse = (a.locks l).inuse := by
  unfold System.lockGive
  split
  · rename_i hq
    refine ⟨?_, .inl (by simp), by simp⟩
    simp [System.lockView, fifo.Lock.apply, hp, hq, slot?_neg]
  · rename_i r ps hq
    refine ⟨?_, .inr ⟨r, by simp⟩, by simp⟩
    simp [System.lockView, fifo.Lock.apply, hp, hq, System.wake_waiting]

/-- A call that names no object operates on no lock. -/
theorem callLockOp_none (ht : KQueue.lock l ∉ a.callTouches c) : a.callLockOp l p c = none := by
  cases c with
  | lockAcquire h | lockRelease h =>
    simpa [System.callTouches, System.callLockOp, Option.map_eq_some_iff] using ht
  | condWait h =>
    rcases hcond : a.cond? h with _ | c
    · simp [System.callLockOp, hcond]
    · simp only [System.callTouches, hcond, List.mem_cons, List.not_mem_nil, or_false,
        reduceCtorEq, false_or, KQueue.lock.injEq] at ht
      simp [System.callLockOp, hcond, Ne.symm ht]
  | _ => rfl

/-- What a call does to a lock that was created. -/
theorem lock_call (hl : (a.locks l).inuse = true) (hok : (a.locks l).PidOk)
    (hc : a.Calls p v c a' res) :
    a'.lockView l = (a.callLockOp l p c).elim (a.lockView l) (a.lockView l).apply ∧
      (a'.locks l).PidOk ∧ (a'.locks l).inuse = true := by
  by_cases ht : KQueue.lock l ∈ a.callTouches c
  swap
  · have hsame := System.Same.calls hc ht
    simp only [callLockOp_none ht, Option.elim, hsame.1, hok, hl, and_self, and_true]
    exact lockView_congr hsame
  cases hc with
  | lockCreate hu =>
    obtain rfl : l = _ := by simpa [System.callTouches, hu] using ht
    rw [firstUnused_some hu] at hl
    cases hl
  | lockAcquire hl? hb =>
    obtain rfl : l = _ := by simpa [System.callTouches, hl?] using ht
    simpa [System.callLockOp, hl?, hl] using lockAcquire_view hok hb
  | lockRelease hl? hp =>
    obtain rfl : l = _ := by simpa [System.callTouches, hl?] using ht
    simpa [System.callLockOp, hl?, hl] using lockGive_view hp
  | lockRefused hl? hp =>
    obtain rfl : l = _ := by simpa [System.callTouches, hl?] using ht
    have hne : (a.lockView l).owner ≠ some p := fun h => hp (lockView_owner.mp h)
    simp [System.callLockOp, hl?, fifo.Lock.apply, hne, hok, hl]
  | condWait hc? hp hi hrun =>
    obtain rfl : l = (a.conds _).lock := by simpa [System.callTouches, hc?] using ht
    obtain ⟨h1, h2, h3⟩ := lockGive_view hp
    refine ⟨?_, h2, h3.trans hl⟩
    simp only [System.callLockOp, hc?, Option.map_some, if_true, Option.elim]
    rw [← h1]
    exact lockView_congr (System.Same.slept _ p (by simp))
  | condWaitUnlocked hc? hp hi hrun =>
    obtain rfl : l = (a.conds _).lock := by simpa [System.callTouches, hc?] using ht
    rw [hi] at hl
    cases hl
  | unnamed h => simp [h] at ht
  | condCreate hl? hu => simp [System.callTouches, hl?, hu] at ht
  | _ => simp [System.callTouches, *] at ht

/-- What a step does to a lock that was created. -/
theorem lock_step {e : Event} {r : Return} (hl : (a.locks l).inuse = true)
    (hok : (a.locks l).PidOk) (hs : a.step v e = some (a', r)) :
    a'.lockView l = (a.lockOp l e).elim (a.lockView l) (a.lockView l).apply ∧
      (a'.locks l).PidOk ∧ (a'.locks l).inuse = true := by
  cases e with
  | call c =>
    obtain ⟨p, b, res, hp, hc, rfl, _⟩ := step_call hs
    simpa [System.lockOp, hp] using lock_call hl hok hc
  | resume =>
    obtain ⟨p, c, stop, b, res, hr, hc, rfl, _⟩ := step_resume hs
    cases hc with
    | returns hs =>
      have hop : a.lockOp l .resume = none := by
        cases stop with
        | condWait c' =>
          have hne : (a.conds c').lock ≠ l := by
            rintro rfl
            rw [hs c' rfl] at hl
            cases hl
          simp [System.lockOp, hr, hne]
        | _ => simp [System.lockOp, hr]
      simp [hop, hok, hl]
    | @acquires c' b res hi hb =>
      simp only [System.lockOp, hr]
      by_cases hcl : (a.conds c').lock = l
      · subst hcl
        simpa [hl] using lockAcquire_view hok hb
      · have hsame : a.Same b (.lock l) := .acquires hb (by simpa using Ne.symm hcl)
        simp only [hcl, if_false, Option.elim, System.setStopped_locks, hsame.1, hok, hl, and_self,
          and_true, setStopped_lockView]
        exact lockView_congr hsame
  | _ =>
    have hsame := System.Same.step (q := .lock l) hs (by simp [System.touches])
    simp only [System.lockOp, Option.elim, hsame.1, hok, hl, and_self, and_true]
    exact lockView_congr hsame

/-! ## One semaphore -/

namespace System

/-- A semaphore as a semaphore that serves in the order of arrival. -/
def semView (a : System) (s : SemId) : fifo.Sem Pid := ⟨(a.sems s).count, a.queue (.sem s)⟩

def callSemOp (a : System) (s : SemId) (p : Pid) : Call → Option (fifo.SemOp Pid)
  | .semWait h => if a.sem? h = some s then some (.wait p) else none
  | .semSignal h => if a.sem? h = some s then some .signal else none
  | _ => none

/-- What a step does to a semaphore. -/
def semOp (a : System) (s : SemId) : Event → Option (fifo.SemOp Pid)
  | .call c => a.current.bind fun p => a.callSemOp s p c
  | _ => none

end System

variable {s : SemId}

theorem semView_congr (h : a.Same a' (.sem s)) : a'.semView s = a.semView s := by
  simp only [System.semView, h.1, h.2]

@[simp] theorem setStopped_semView (x : Option (Call × Stop)) :
    (a.setStopped p x).semView s = a.semView s := rfl

theorem toInt32_eq {n : Int} (h1 : -2 ^ 31 ≤ n) (h2 : n < 2 ^ 31) : toInt32 n = n := by
  unfold toInt32
  rw [Int.bmod_eq_of_le] <;> omega

theorem toInt32_range (n : Int) : -2 ^ 31 ≤ toInt32 n ∧ toInt32 n < 2 ^ 31 := by
  have h1 := Int.le_bmod (x := n) (m := 2 ^ 32) (by decide)
  have h2 := Int.bmod_lt (x := n) (m := 2 ^ 32) (by decide)
  unfold toInt32
  omega

/-- The count is an `int`, and processes wait only where there is no permit. -/
structure SemOk (a : System) (s : SemId) : Prop where
  ge : -2 ^ 31 ≤ (a.sems s).count
  lt : (a.sems s).count < 2 ^ 31
  view : (a.semView s).Ok

/-- A wait takes a permit. -/
theorem semTakes_view (hok : SemOk a s) (hn : 0 < (a.sems s).count) :
    SemOk (a.setSem s { a.sems s with count := toInt32 ((a.sems s).count - 1) }) s ∧
      (a.setSem s { a.sems s with count := toInt32 ((a.sems s).count - 1) }).semView s =
        (a.semView s).apply (.wait p) := by
  obtain ⟨hge, hlt, hview⟩ := hok
  have h32 : toInt32 ((a.sems s).count - 1) = (a.sems s).count - 1 :=
    toInt32_eq (by omega) (by omega)
  have hgt : ¬ (a.sems s).count ≤ 0 := by omega
  have hv : (a.setSem s { a.sems s with count := toInt32 ((a.sems s).count - 1) }).semView s =
      (a.semView s).apply (.wait p) := by
    simp [System.semView, fifo.Sem.apply, hgt, h32]
  refine ⟨⟨?_, ?_, hv ▸ hview.apply _⟩, hv⟩
  all_goals simp only [System.setSem_sems, update_self, h32]; omega

/-- A signal. The last one before an overflow makes the count negative. -/
theorem semSignal_view (hok : SemOk a s) : SemOk (a.semSignal s) s ∧
    ((a.sems s).count + 1 < 2 ^ 31 →
      (a.semSignal s).semView s = (a.semView s).apply .signal) := by
  obtain ⟨hge, hlt, hview⟩ := hok
  unfold System.semSignal
  simp only
  by_cases hmax : (a.sems s).count + 1 < 2 ^ 31
  · have hn : toInt32 ((a.sems s).count + 1) = (a.sems s).count + 1 :=
      toInt32_eq (by omega) (by omega)
    have hn' : toInt32 (a.sems s).count = (a.sems s).count := toInt32_eq hge hlt
    split
    · rename_i hpos
      rw [hn] at hpos
      obtain ⟨r, rs, hq⟩ := List.exists_cons_of_ne_nil hpos.2
      have hv : ((a.wake (.sem s)).setSem s { a.sems s with
          count := toInt32 (toInt32 ((a.sems s).count + 1) - 1) }).semView s =
          (a.semView s).apply .signal := by
        simp [System.semView, fifo.Sem.apply, hq, hpos.1, hn, System.wake_waiting, hn']
      refine ⟨⟨?_, ?_, hv ▸ hview.apply _⟩, fun _ => hv⟩
      all_goals simp only [System.setSem_sems, update_self, hn, Int.add_sub_cancel, hn']; omega
    · rename_i hno
      rw [hn] at hno
      have hv : (a.setSem s { a.sems s with
          count := toInt32 ((a.sems s).count + 1) }).semView s =
          (a.semView s).apply .signal := by
        rcases hq : a.queue (.sem s) with _ | ⟨r, rs⟩
        · simp [System.semView, fifo.Sem.apply, hq, hn]
        · have : ¬ 0 < (a.sems s).count + 1 := fun h => hno ⟨h, by simp [hq]⟩
          simp [System.semView, fifo.Sem.apply, hq, hn, this]
      refine ⟨⟨?_, ?_, hv ▸ hview.apply _⟩, fun _ => hv⟩
      all_goals simp only [System.setSem_sems, update_self, hn]; omega
  · -- the count overflows, and nobody waits
    have hc : (a.sems s).count = 2 ^ 31 - 1 := by omega
    have hn : toInt32 ((a.sems s).count + 1) = -2 ^ 31 := by rw [hc]; decide
    rw [hn, if_neg (by omega)]
    refine ⟨⟨by simp, by simp, fun _ => by simp [System.semView]⟩, fun h => absurd h hmax⟩

theorem semSignal_inuse : ((a.semSignal s).sems s).inuse = (a.sems s).inuse := by
  unfold System.semSignal
  simp only
  split <;> simp

/-- A call that does not name the semaphore does not operate on it. -/
theorem callSemOp_none (ht : KQueue.sem s ∉ a.callTouches c) : a.callSemOp s p c = none := by
  cases c with
  | semWait h | semSignal h =>
    simpa [System.callTouches, System.callSemOp, Option.map_eq_some_iff] using ht
  | _ => rfl

/-- What a call does to a semaphore that was created. -/
theorem sem_call (hi : (a.sems s).inuse = true) (hok : SemOk a s)
    (hc : a.Calls p v c a' res) :
    (a'.sems s).inuse = true ∧ SemOk a' s ∧
      ((a.callSemOp s p c = some .signal → (a.sems s).count + 1 < 2 ^ 31) →
        a'.semView s = (a.callSemOp s p c).elim (a.semView s) (a.semView s).apply) := by
  by_cases ht : KQueue.sem s ∈ a.callTouches c
  swap
  · have hsame := System.Same.calls hc ht
    have hv := semView_congr hsame
    obtain ⟨hge, hlt, hview⟩ := hok
    simp only [callSemOp_none ht, Option.elim, hsame.1, hi, true_and, hv, implies_true, and_true]
    exact ⟨by rw [hsame.1]; exact hge, by rw [hsame.1]; exact hlt, hv ▸ hview⟩
  cases hc with
  | semCreate hu =>
    obtain rfl : s = _ := by simpa [System.callTouches, hu] using ht
    rw [firstUnused_some hu] at hi
    cases hi
  | semSleeps hs hn hrun =>
    obtain rfl : s = _ := by simpa [System.callTouches, hs] using ht
    have hv : (a.slept p (.sem s)).semView s = (a.semView s).apply (.wait p) := by
      simp [System.semView, fifo.Sem.apply, System.slept_waiting, hn]
    refine ⟨hi, ⟨hok.ge, hok.lt, hv ▸ hok.view.apply _⟩, fun _ => ?_⟩
    simpa [System.callSemOp, hs] using hv
  | semTakes hs hn =>
    obtain rfl : s = _ := by simpa [System.callTouches, hs] using ht
    obtain ⟨hok', hv⟩ := semTakes_view (p := p) hok hn
    exact ⟨by simpa using hi, hok', fun _ => by simpa [System.callSemOp, hs] using hv⟩
  | semSignal hs =>
    obtain rfl : s = _ := by simpa [System.callTouches, hs] using ht
    obtain ⟨hok', hv⟩ := semSignal_view hok
    refine ⟨semSignal_inuse.trans hi, hok', fun hmax => ?_⟩
    simp only [System.callSemOp, hs, if_true, Option.elim] at hmax ⊢
    exact hv (hmax trivial)
  | unnamed h => simp [h] at ht
  | condCreate hl? hu => simp [System.callTouches, hl?, hu] at ht
  | _ => simp [System.callTouches, *] at ht

/-- What a step does to a semaphore that was created. -/
theorem sem_step {e : Event} {r : Return} (hi : (a.sems s).inuse = true) (hok : SemOk a s)
    (hs : a.step v e = some (a', r)) :
    (a'.sems s).inuse = true ∧ SemOk a' s ∧
      ((a.semOp s e = some .signal → (a.sems s).count + 1 < 2 ^ 31) →
        a'.semView s = (a.semOp s e).elim (a.semView s) (a.semView s).apply) := by
  cases e with
  | call c =>
    obtain ⟨p, b, res, hp, hc, rfl, _⟩ := step_call hs
    obtain ⟨h1, h2, h3⟩ := sem_call hi hok hc
    refine ⟨h1, ⟨h2.ge, h2.lt, h2.view⟩, fun hmax => ?_⟩
    simp only [System.semOp, hp, Option.bind_some] at hmax ⊢
    exact h3 hmax
  | resume | timer | contextSwitch | exit | fork =>
    have hsame : a.Same a' (.sem s) := by
      refine System.Same.step hs ?_
      simp only [System.touches]
      first | simp | split <;> simp
    have hv := semView_congr hsame
    simp only [System.semOp, Option.elim, hsame.1, hi, true_and, hv, implies_true, and_true]
    exact ⟨by rw [hsame.1]; exact hok.ge, by rw [hsame.1]; exact hok.lt, hv ▸ hok.view⟩

end dlxos
