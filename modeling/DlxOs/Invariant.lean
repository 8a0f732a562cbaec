-- The invariant of the system. Each process has one home, a queue of
-- `process.c`, and it waits on one queue of `synch.c` while its home is the
-- wait queue, and on none at all other times.
import DlxOs.System

namespace dlxos

open Function

variable {Q : KQueue → List Pid} {home : Pid → KQueue} {waits : Pid → Option KQueue}

/-! ## The place of each process -/

/-- The queues hold each process at its home, and where it waits. -/
structure Placed (Q : KQueue → List Pid) (home : Pid → KQueue) (waits : Pid → Option KQueue) :
    Prop where
  nodup : ∀ q, (Q q).Nodup
  isProc : ∀ p, (home p).isProc = true
  isWait : ∀ p q, waits p = some q → q.isProc = false
  mem : ∀ q p, p ∈ Q q ↔ home p = q ∨ waits p = some q

theorem Placed.home_ne (h : Placed Q home waits) {q : KQueue} (hq : q.isProc = false) (p : Pid) :
    home p ≠ q := by
  rintro rfl
  rw [h.isProc] at hq
  cases hq

theorem Placed.waits_ne (h : Placed Q home waits) {q : KQueue} (hq : q.isProc = true) (p : Pid) :
    waits p ≠ some q := by
  intro he
  rw [h.isWait p q he] at hq
  cases hq

theorem Placed.mem_proc (h : Placed Q home waits) {q : KQueue} (hq : q.isProc = true) (p : Pid) :
    p ∈ Q q ↔ home p = q := by
  simp [h.mem, h.waits_ne hq]

theorem Placed.mem_wait (h : Placed Q home waits) {q : KQueue} (hq : q.isProc = false) (p : Pid) :
    p ∈ Q q ↔ waits p = some q := by
  simp [h.mem, h.home_ne hq]

/-- A process moves to the end of another process queue. -/
theorem Placed.move (h : Placed Q home waits) {p : Pid} {q r : KQueue} (hp : home p = q)
    (hr : r.isProc = true) : Placed (moveLast Q p q r) (update home p r) waits := by
  have hq : q.isProc = true := hp ▸ h.isProc p
  have herase : ∀ s p', p' ∈ update Q q ((Q q).erase p) s ↔ p' ∈ Q s ∧ (s = q → p' ≠ p) := by
    intro s p'
    by_cases hs : s = q
    · subst hs
      simp [(h.nodup s).mem_erase_iff, and_comm]
    · simp [hs]
  have hnodup : ∀ s, (update Q q ((Q q).erase p) s).Nodup := by
    intro s
    by_cases hs : s = q
    · subst hs; simpa using (h.nodup s).erase p
    · simpa [hs] using h.nodup s
  have hout : p ∉ update Q q ((Q q).erase p) r := by
    rw [herase, h.mem_proc hr, hp]
    rintro ⟨rfl, hne⟩
    exact hne rfl rfl
  refine ⟨?_, ?_, h.isWait, ?_⟩
  · intro s
    by_cases hs : s = r
    · subst hs
      rw [moveLast, update_self]
      exact List.nodup_append.mpr ⟨hnodup s, by simp, by
        intro x hx y hy
        obtain rfl : y = p := by simpa using hy
        rintro rfl
        exact hout hx⟩
    · rw [moveLast, update_of_ne hs]
      exact hnodup s
  · intro p'
    by_cases hp' : p' = p
    · subst hp'; simpa using hr
    · simpa [hp'] using h.isProc p'
  · intro s p'
    have : p' ∈ moveLast Q p q r s ↔ (p' ∈ Q s ∧ (s = q → p' ≠ p)) ∨ (s = r ∧ p' = p) := by
      by_cases hs : s = r
      · subst hs
        rw [moveLast, update_self, List.mem_append, herase]
        simp
      · rw [moveLast, update_of_ne hs, herase]
        simp [hs]
    rw [this, h.mem]
    by_cases hp' : p' = p
    · subst hp'
      rw [update_self, hp]
      by_cases hw : waits p' = some s
      · have : s ≠ q := fun he => h.waits_ne hq p' (he ▸ hw)
        simp [hw, this]
      · simp only [hw, or_false, and_true]
        constructor
        · rintro (⟨rfl, hne⟩ | rfl)
          · exact absurd rfl (hne rfl)
          · rfl
        · exact fun he => .inr he.symm
    · simp [hp']

/-- A process joins a waiting queue. -/
theorem Placed.join (h : Placed Q home waits) {p : Pid} {q : KQueue} (hp : waits p = none)
    (hq : q.isProc = false) :
    Placed (update Q q (Q q ++ [p])) home (update waits p (some q)) := by
  have hout : p ∉ Q q := by rw [h.mem_wait hq, hp]; simp
  refine ⟨?_, h.isProc, ?_, ?_⟩
  · intro s
    by_cases hs : s = q
    · subst hs
      rw [update_self]
      exact List.nodup_append.mpr ⟨h.nodup s, by simp, by
        intro x hx y hy
        obtain rfl : y = p := by simpa using hy
        rintro rfl
        exact hout hx⟩
    · simpa [hs] using h.nodup s
  · intro p' s
    by_cases hp' : p' = p
    · subst hp'
      rw [update_self, Option.some.injEq]
      rintro rfl
      exact hq
    · simpa [hp'] using h.isWait p' s
  · intro s p'
    by_cases hs : s = q
    · subst hs
      by_cases hp' : p' = p
      · subst hp'; simp
      · simp [hp', h.mem]
    · by_cases hp' : p' = p
      · subst hp'; simp [hs, h.mem, hp, Ne.symm hs]
      · simp [hs, hp', h.mem]

/-- The first process of a waiting queue leaves it. -/
theorem Placed.leave (h : Placed Q home waits) {p : Pid} {ps : List Pid} {q : KQueue}
    (hp : Q q = p :: ps) (hq : q.isProc = false) :
    Placed (update Q q ps) home (update waits p none) := by
  have hd := h.nodup q
  rw [hp, List.nodup_cons] at hd
  have hw : waits p = some q := (h.mem_wait hq p).mp (by simp [hp])
  refine ⟨?_, h.isProc, ?_, ?_⟩
  · intro s
    by_cases hs : s = q
    · subst hs; simpa using hd.2
    · simpa [hs] using h.nodup s
  · intro p' s
    by_cases hp' : p' = p
    · subst hp'; simp
    · simpa [hp'] using h.isWait p' s
  · intro s p'
    by_cases hs : s = q
    · subst hs
      have hm := h.mem s p'
      rw [hp, List.mem_cons] at hm
      by_cases hp' : p' = p
      · subst hp'; simp [hd.1, h.home_ne hq]
      · simpa [hp'] using hm
    · by_cases hp' : p' = p
      · subst hp'
        simp [hs, h.mem, hw, Ne.symm hs]
      · simp [hs, hp', h.mem]

/-! ## The invariant -/

namespace System

/-- The object of a waiting queue was created. -/
def created (a : System) : KQueue → Bool
  | .sem s => (a.sems s).inuse
  | .lock l => (a.locks l).inuse
  | .cond c => (a.conds c).inuse
  | _ => true

/-- The queue on which a process stopped. -/
def stopQueue (a : System) : Stop → KQueue
  | .semWait s => .sem s
  | .lockAcquire l => .lock l
  | .condWait c => .cond c
  | .condAcquire c => .lock (a.conds c).lock

/-- A call can stop at this place. -/
def Matches (a : System) : Call → Stop → Prop
  | .semWait h, .semWait s => a.sem? h = some s
  | .lockAcquire h, .lockAcquire l => a.lock? h = some l
  | .condWait h, .condWait c => a.cond? h = some c
  | .condWait h, .condAcquire c => a.cond? h = some c ∧ (a.locks (a.conds c).lock).inuse = true
  | _, _ => False

/-- Process `p` stopped on queue `q`. It may have been woken since. -/
def StoppedOn (a : System) (p : Pid) (q : KQueue) : Prop :=
  ∃ c stop, a.stopped p = some (c, stop) ∧ a.stopQueue stop = q

/-- Objects stay created, and a condition variable keeps its lock. -/
structure Grows (a a' : System) : Prop where
  sems : ∀ s, (a.sems s).inuse = true → (a'.sems s).inuse = true
  locks : ∀ l, (a.locks l).inuse = true → (a'.locks l).inuse = true
  conds : ∀ c, (a.conds c).inuse = true → a'.conds c = a.conds c

end System

/-- Processes are where their calls left them. -/
structure Sleepers (a : System) (home : Pid → KQueue) (waits : Pid → Option KQueue) : Prop where
  placed : Placed a.queue home waits
  waiting : ∀ p, home p = .waitQueue ↔ waits p ≠ none
  zombie : ∀ p, home p ≠ .zombieQueue
  created : ∀ p q, waits p = some q → a.created q = true
  stops : ∀ p q, waits p = some q → a.StoppedOn p q
  free : ∀ p, home p = .freepcbs → a.stopped p = none
  matched : ∀ p c stop, a.stopped p = some (c, stop) → a.Matches c stop

variable {a a' : System} {p : Pid} {q : KQueue}

/-! ## Objects that are created -/

theorem sem?_some {h : Int} {s : SemId} :
    a.sem? h = some s ↔ slot? MAX_SEMS h = some s ∧ (a.sems s).inuse = true := by
  simp [System.sem?, Option.filter_eq_some_iff]

theorem lock?_some {h : Int} {l : LockId} :
    a.lock? h = some l ↔ slot? MAX_LOCKS h = some l ∧ (a.locks l).inuse = true := by
  simp [System.lock?, Option.filter_eq_some_iff]

theorem cond?_some {h : Int} {c : CondId} :
    a.cond? h = some c ↔ slot? MAX_CONDS h = some c ∧ (a.conds c).inuse = true := by
  simp [System.cond?, Option.filter_eq_some_iff]

theorem System.Grows.created (hg : a.Grows a') (h : a.created q = true) :
    a'.created q = true := by
  cases q with
  | sem s => exact hg.sems s h
  | lock l => exact hg.locks l h
  | cond c => rw [System.created, hg.conds c h]; exact h
  | _ => rfl

theorem System.Grows.matches (hg : a.Grows a') {c : Call} {stop : Stop} (h : a.Matches c stop) :
    a'.Matches c stop ∧ a'.stopQueue stop = a.stopQueue stop := by
  unfold System.Matches at h
  split at h
  · rw [sem?_some] at h
    exact ⟨sem?_some.mpr ⟨h.1, hg.sems _ h.2⟩, rfl⟩
  · rw [lock?_some] at h
    exact ⟨lock?_some.mpr ⟨h.1, hg.locks _ h.2⟩, rfl⟩
  · rw [cond?_some] at h
    exact ⟨cond?_some.mpr ⟨h.1, by rw [hg.conds _ h.2]; exact h.2⟩, rfl⟩
  · obtain ⟨h, hl⟩ := h
    rw [cond?_some] at h
    have hc := hg.conds _ h.2
    refine ⟨⟨cond?_some.mpr ⟨h.1, by rw [hc]; exact h.2⟩, ?_⟩, ?_⟩
    · rw [hc]; exact hg.locks _ hl
    · rw [System.stopQueue, hc]; rfl
  · cases h

/-- A write of the tables keeps the sleepers. -/
theorem Sleepers.grow (h : Sleepers a home waits) (hg : a.Grows a') (hq : a'.queue = a.queue)
    (hs : a'.stopped = a.stopped) : Sleepers a' home waits := by
  refine ⟨hq ▸ h.placed, h.waiting, h.zombie, ?_, ?_, hs ▸ h.free, ?_⟩
  · exact fun p q hw => hg.created (h.created p q hw)
  · intro p q hw
    obtain ⟨c, stop, h1, h2⟩ := h.stops p q hw
    exact ⟨c, stop, hs ▸ h1, ((hg.matches (h.matched p c stop h1)).2).trans h2⟩
  · intro p c stop h1
    exact (hg.matches (h.matched p c stop (hs ▸ h1))).1

/-! ## Moving processes -/

/-- The running process waits on nothing. -/
theorem Sleepers.running (h : Sleepers a home waits) (hp : p ∈ a.queue .runQueue) :
    home p = .runQueue ∧ waits p = none := by
  have hr := (h.placed.mem_proc rfl p).mp hp
  refine ⟨hr, ?_⟩
  by_contra hw
  have := (h.waiting p).mpr hw
  rw [hr] at this
  cases this

/-- A process that is not asleep moves between the other queues. -/
theorem Sleepers.move (h : Sleepers a home waits) {r : KQueue} (hp : home p = q)
    (hq : q ≠ .waitQueue) (hr : r = .freepcbs ∨ r = .runQueue)
    (hs : r = .freepcbs → a.stopped p = none) :
    Sleepers (a.move p q r) (update home p r) waits := by
  have hw : waits p = none := by
    by_contra hw
    exact hq (hp ▸ (h.waiting p).mpr hw)
  have hproc : r.isProc = true := by rcases hr with rfl | rfl <;> rfl
  refine ⟨h.placed.move hp hproc, ?_, ?_, h.created, h.stops, ?_, h.matched⟩
  all_goals intro p'
  all_goals by_cases hp' : p' = p
  all_goals simp only [hp', update_self, ne_eq, not_false_eq_true, update_of_ne]
  · rcases hr with rfl | rfl <;> simp [hw]
  · exact h.waiting p'
  · rcases hr with rfl | rfl <;> simp
  · exact h.zombie p'
  · exact hs
  · exact h.free p'

/-- The running process goes to sleep. -/
theorem Sleepers.slept (h : Sleepers a home waits) (hp : p ∈ a.queue .runQueue) {c : Call}
    {stop : Stop} (hm : a.Matches c stop) (hq : a.stopQueue stop = q) (hw : q.isProc = false)
    (hc : a.created q = true) :
    Sleepers ((a.slept p q).setStopped p (some (c, stop))) (update home p .waitQueue)
      (update waits p (some q)) := by
  obtain ⟨hrun, hnone⟩ := h.running hp
  have hon : ∀ p' r, a.StoppedOn p' r → p' ≠ p →
      ((a.slept p q).setStopped p (some (c, stop))).StoppedOn p' r := by
    rintro p' r ⟨c', stop', h1, h2⟩ hne
    exact ⟨c', stop', by simpa [System.slept, hne] using h1, h2⟩
  refine ⟨(h.placed.join hnone hw).move hrun rfl, ?_, ?_, ?_, ?_, ?_, ?_⟩
  all_goals intro p'
  all_goals by_cases hp' : p' = p
  all_goals simp only [hp', update_self, ne_eq, not_false_eq_true, update_of_ne,
    System.setStopped_stopped, System.slept, System.move_stopped, System.setQueue_stopped]
  · simp
  · exact h.waiting p'
  · simp
  · exact h.zombie p'
  · rintro r he
    obtain rfl := Option.some.inj he
    exact hc
  · exact h.created p'
  · rintro r he
    obtain rfl := Option.some.inj he
    exact ⟨c, stop, by simp, hq⟩
  · exact fun r hr => hon p' r (h.stops p' r hr) hp'
  · simp
  · exact h.free p'
  · rintro c' stop' he
    obtain ⟨rfl, rfl⟩ := Prod.mk.inj (Option.some.inj he)
    exact hm
  · exact h.matched p'

/-- The first process of a waiting queue wakes up. -/
theorem Sleepers.wakes (h : Sleepers a home waits) (hw : q.isProc = false) {ps : List Pid}
    (hp : a.queue q = p :: ps) :
    Sleepers (a.wake q) (update home p .runQueue) (update waits p none) := by
  have hwait : waits p = some q := (h.placed.mem_wait hw p).mp (by simp [hp])
  have hhome : home p = .waitQueue := (h.waiting p).mpr (by simp [hwait])
  have he : a.wake q = (a.setQueue q ps).move p .waitQueue .runQueue := by
    simp only [System.wake, hp]
  rw [he]
  refine ⟨(h.placed.leave hp hw).move hhome rfl, ?_, ?_, ?_, ?_, ?_, h.matched⟩
  all_goals intro p'
  all_goals by_cases hp' : p' = p
  all_goals simp only [hp', update_self, ne_eq, not_false_eq_true, update_of_ne,
    System.move_stopped, System.setQueue_stopped]
  · simp
  · exact h.waiting p'
  · simp
  · exact h.zombie p'
  · rintro r ⟨⟩
  · exact h.created p'
  · rintro r ⟨⟩
  · exact h.stops p'
  · simp
  · exact h.free p'

theorem Sleepers.wake (h : Sleepers a home waits) (hw : q.isProc = false) :
    ∃ home' waits', Sleepers (a.wake q) home' waits' := by
  rcases hq : a.queue q with _ | ⟨p, ps⟩
  · exact ⟨home, waits, by simpa only [System.wake, hq] using h⟩
  · exact ⟨_, _, h.wakes hw hq⟩

/-- The running process has come back from its sleep. -/
theorem Sleepers.resumed (h : Sleepers a home waits) (hp : p ∈ a.queue .runQueue) :
    Sleepers (a.setStopped p none) home waits := by
  obtain ⟨_, hnone⟩ := h.running hp
  refine ⟨h.placed, h.waiting, h.zombie, h.created, ?_, ?_, ?_⟩
  · intro p' r hr
    have hne : p' ≠ p := by
      rintro rfl
      rw [hnone] at hr
      cases hr
    obtain ⟨c, stop, h1, h2⟩ := h.stops p' r hr
    exact ⟨c, stop, by simpa [hne] using h1, h2⟩
  all_goals intro p'
  all_goals by_cases hp' : p' = p
  all_goals simp only [hp', update_self, ne_eq, not_false_eq_true, update_of_ne,
    System.setStopped_stopped]
  · simp
  · exact h.free p'
  · rintro c stop ⟨⟩
  · exact h.matched p'

end dlxos
