-- What a step of the system can come to, one case for each way in which it
-- goes. A proof about steps splits on these cases, and does not look into the
-- definition of a step again.
import DlxOs.System

namespace dlxos

open Function

namespace System

/-! ## What a step touches -/

/-- The objects that a call can change, by their waiting queues. -/
def callTouches (a : System) : Call → List KQueue
  | .semCreate _ => ((firstUnused fun s => (a.sems s).inuse).map .sem).toList
  | .semWait h | .semSignal h => ((a.sem? h).map .sem).toList
  | .lockCreate => ((firstUnused fun l => (a.locks l).inuse).map .lock).toList
  | .lockAcquire h | .lockRelease h => ((a.lock? h).map .lock).toList
  | .condCreate h => match slot? MAX_LOCKS h with
    | none => []
    | some _ => ((firstUnused fun c => (a.conds c).inuse).map .cond).toList
  | .condWait h => match a.cond? h with
    | none => []
    | some c => [.cond c, .lock (a.conds c).lock]
  | .condSignal h | .condBroadcast h => ((a.cond? h).map .cond).toList
  | .shareCreatePage | .shareMapPage _ => []

/-- The running process, and the place where it stopped, if it did. -/
def resuming (a : System) : Option (Pid × Call × Stop) :=
  a.current.bind fun p => (a.stopped p).map fun f => (p, f)

def touches (a : System) : Event → List KQueue
  | .call c => a.callTouches c
  | .resume => match a.resuming with
    | some (_, _, .condWait c) => [.lock (a.conds c).lock]
    | _ => []
  | .fork _ _ | .exit => [.freepcbs]
  | .timer | .contextSwitch => []

/-! ## The cases of a call -/

/-- The ways in which an acquire goes. -/
inductive Acquires (a : System) (p : Pid) (l : LockId) (stop : Stop) : System → Result → Prop where
  | owned (hp : (a.locks l).pid = p.val) : Acquires a p l stop a (.returns SYNC_SUCCESS)
  | sleeps (hp : (a.locks l).pid ≠ p.val) (ho : 0 ≤ (a.locks l).pid)
      (hrun : (a.slept p (.lock l)).queue .runQueue ≠ []) :
    Acquires a p l stop (a.slept p (.lock l)) (.sleeps stop)
  | takes (ho : (a.locks l).pid < 0) :
    Acquires a p l stop (a.setLock l { a.locks l with pid := p }) (.returns SYNC_SUCCESS)

/-- The ways in which a call goes. -/
inductive Calls (a : System) (p : Pid) (v : Int) : Call → System → Result → Prop where
  /-- The handle names nothing, or there is no object left. -/
  | unnamed {c : Call} (ht : a.callTouches c = []) : Calls a p v c a (.returns SYNC_FAIL)
  | semCreate {count : Int} {s : SemId}
      (hu : (firstUnused fun s => (a.sems s).inuse) = some s) :
    Calls a p v (.semCreate count) (a.setSem s ⟨toInt32 count, true⟩) (.returns s)
  | semSleeps {h : Int} {s : SemId} (hs : a.sem? h = some s) (hn : (a.sems s).count ≤ 0)
      (hrun : (a.slept p (.sem s)).queue .runQueue ≠ []) :
    Calls a p v (.semWait h) (a.slept p (.sem s)) (.sleeps (.semWait s))
  | semTakes {h : Int} {s : SemId} (hs : a.sem? h = some s) (hn : 0 < (a.sems s).count) :
    Calls a p v (.semWait h)
      (a.setSem s { a.sems s with count := toInt32 ((a.sems s).count - 1) })
      (.returns SYNC_SUCCESS)
  | semSignal {h : Int} {s : SemId} (hs : a.sem? h = some s) :
    Calls a p v (.semSignal h) (a.semSignal s) (.returns SYNC_SUCCESS)
  | lockCreate {l : LockId} (hu : (firstUnused fun l => (a.locks l).inuse) = some l) :
    Calls a p v .lockCreate (a.setLock l ⟨-1, true⟩) (.returns l)
  | lockAcquire {h : Int} {l : LockId} {b : System} {res : Result} (hl : a.lock? h = some l)
      (hb : a.Acquires p l (.lockAcquire l) b res) : Calls a p v (.lockAcquire h) b res
  | lockRelease {h : Int} {l : LockId} (hl : a.lock? h = some l)
      (hp : (a.locks l).pid = p.val) :
    Calls a p v (.lockRelease h) (a.lockGive l) (.returns SYNC_SUCCESS)
  | lockRefused {h : Int} {l : LockId} (hl : a.lock? h = some l)
      (hp : (a.locks l).pid ≠ p.val) : Calls a p v (.lockRelease h) a (.returns SYNC_FAIL)
  | condCreate {h : Int} {l : LockId} {c : CondId} (hl : slot? MAX_LOCKS h = some l)
      (hu : (firstUnused fun c => (a.conds c).inuse) = some c) :
    Calls a p v (.condCreate h) (a.setCond c ⟨l, true⟩) (.returns c)
  | condWait {h : Int} {c : CondId} (hc : a.cond? h = some c)
      (hp : (a.locks (a.conds c).lock).pid = p.val)
      (hi : (a.locks (a.conds c).lock).inuse = true)
      (hrun : ((a.lockGive (a.conds c).lock).slept p (.cond c)).queue .runQueue ≠ []) :
    Calls a p v (.condWait h) ((a.lockGive (a.conds c).lock).slept p (.cond c))
      (.sleeps (.condWait c))
  /-- The lock was never created, so it is not released. -/
  | condWaitUnlocked {h : Int} {c : CondId} (hc : a.cond? h = some c)
      (hp : (a.locks (a.conds c).lock).pid = p.val)
      (hi : (a.locks (a.conds c).lock).inuse = false)
      (hrun : (a.slept p (.cond c)).queue .runQueue ≠ []) :
    Calls a p v (.condWait h) (a.slept p (.cond c)) (.sleeps (.condWait c))
  | condSignal {h : Int} {c : CondId} (hc : a.cond? h = some c)
      (hp : (a.locks (a.conds c).lock).pid = p.val) :
    Calls a p v (.condSignal h) (a.wake (.cond c)) (.returns SYNC_SUCCESS)
  | signalRefused {h : Int} {c : CondId} (hc : a.cond? h = some c)
      (hp : (a.locks (a.conds c).lock).pid ≠ p.val) :
    Calls a p v (.condSignal h) a (.returns SYNC_FAIL)
  | condBroadcast {h : Int} {c : CondId} (hc : a.cond? h = some c)
      (hp : (a.locks (a.conds c).lock).pid = p.val) :
    Calls a p v (.condBroadcast h) (wakeAll (.cond c) (a.queue (.cond c)).length a)
      (.returns SYNC_SUCCESS)
  | broadcastRefused {h : Int} {c : CondId} (hc : a.cond? h = some c)
      (hp : (a.locks (a.conds c).lock).pid ≠ p.val) :
    Calls a p v (.condBroadcast h) a (.returns SYNC_FAIL)
  | shareCreatePage : Calls a p v .shareCreatePage a (.returns v)
  | shareMapPage {h : Nat} : Calls a p v (.shareMapPage h) a (.returns v)

/-- The ways in which a call goes on after a sleep. -/
inductive Resumes (a : System) (p : Pid) : Stop → System → Result → Prop where
  | returns {stop : Stop}
      (hs : ∀ c, stop = .condWait c → (a.locks (a.conds c).lock).inuse = false) :
    Resumes a p stop a (.returns SYNC_SUCCESS)
  | acquires {c : CondId} {b : System} {res : Result}
      (hi : (a.locks (a.conds c).lock).inuse = true)
      (hb : a.Acquires p (a.conds c).lock (.condAcquire c) b res) :
    Resumes a p (.condWait c) b res

section

variable {a b : System} {p : Pid} {q : KQueue} {l : LockId} {stop : Stop} {res : Result}
  {v : Int} {c : Call}

theorem sleep_some (h : a.sleep p q stop = some (b, res)) :
    b = a.slept p q ∧ res = .sleeps stop ∧ (a.slept p q).queue .runQueue ≠ [] := by
  unfold sleep at h
  split at h
  · cases h
  · rename_i hrun
    obtain ⟨rfl, rfl⟩ := Prod.mk.inj (Option.some.inj h)
    exact ⟨rfl, rfl, hrun⟩

theorem acquires (h : a.lockAcquire p l stop = some (b, res)) : a.Acquires p l stop b res := by
  unfold lockAcquire at h
  split at h
  · obtain ⟨rfl, rfl⟩ := Prod.mk.inj (Option.some.inj h)
    exact .owned ‹_›
  · split at h
    · obtain ⟨rfl, rfl, hrun⟩ := sleep_some h
      exact .sleeps ‹_› ‹_› hrun
    · obtain ⟨rfl, rfl⟩ := Prod.mk.inj (Option.some.inj h)
      exact .takes (Int.not_le.mp ‹_›)

/-- A call either gets no object, or goes on with one. -/
theorem elim_cases {α β : Type} {o : Option α} {x : Option β} {f : α → Option β} {y : β}
    (h : o.elim x f = some y) : o = none ∧ x = some y ∨ ∃ i, o = some i ∧ f i = some y := by
  rcases o with _ | i
  · exact .inl ⟨rfl, h⟩
  · exact .inr ⟨i, rfl, h⟩

theorem unnamed_of {n : Int} (ht : a.callTouches c = []) (hn : n = SYNC_FAIL)
    (h : (a, Result.returns n) = (b, res)) : a.Calls p v c b res := by
  obtain ⟨rfl, rfl⟩ := Prod.mk.inj h
  subst hn
  exact .unnamed ht

theorem calls (h : a.call p v c = some (b, res)) : a.Calls p v c b res := by
  cases c with
  | semCreate count =>
    simp only [call, semCreate, Option.some.injEq] at h
    split at h
    · exact unnamed_of (by simp [callTouches, *]) rfl h
    · obtain ⟨rfl, rfl⟩ := Prod.mk.inj h
      exact .semCreate ‹_›
  | semWait k =>
    simp only [call] at h
    rcases elim_cases h with ⟨hs, h⟩ | ⟨s, hs, h⟩
    · exact unnamed_of (by simp [callTouches, hs]) rfl (Option.some.inj h)
    · simp only [semWait] at h
      split at h
      · obtain ⟨rfl, rfl, hrun⟩ := sleep_some h
        exact .semSleeps hs ‹_› hrun
      · obtain ⟨rfl, rfl⟩ := Prod.mk.inj (Option.some.inj h)
        exact .semTakes hs (Int.not_le.mp ‹_›)
  | semSignal k =>
    simp only [call] at h
    rcases elim_cases h with ⟨hs, h⟩ | ⟨s, hs, h⟩
    · exact unnamed_of (by simp [callTouches, hs]) rfl (Option.some.inj h)
    · obtain ⟨rfl, rfl⟩ := Prod.mk.inj (Option.some.inj h)
      exact .semSignal hs
  | lockCreate =>
    simp only [call, lockCreate, Option.some.injEq] at h
    split at h
    · exact unnamed_of (by simp [callTouches, *]) rfl h
    · obtain ⟨rfl, rfl⟩ := Prod.mk.inj h
      exact .lockCreate ‹_›
  | lockAcquire k =>
    simp only [call] at h
    rcases elim_cases h with ⟨hl, h⟩ | ⟨l, hl, h⟩
    · exact unnamed_of (by simp [callTouches, hl]) rfl (Option.some.inj h)
    · exact .lockAcquire hl (acquires h)
  | lockRelease k =>
    simp only [call] at h
    rcases elim_cases h with ⟨hl, h⟩ | ⟨l, hl, h⟩
    · exact unnamed_of (by simp [callTouches, hl]) rfl (Option.some.inj h)
    · simp only [lockRelease, Option.some.injEq] at h
      split at h
      · obtain ⟨rfl, rfl⟩ := Prod.mk.inj h
        exact .lockRelease hl ‹_›
      · obtain ⟨rfl, rfl⟩ := Prod.mk.inj h
        exact .lockRefused hl ‹_›
  | condCreate k =>
    simp only [call] at h
    rcases elim_cases h with ⟨hl, h⟩ | ⟨l, hl, h⟩
    · exact unnamed_of (by simp [callTouches, hl]) rfl (Option.some.inj h)
    · simp only [condCreate, Option.some.injEq] at h
      split at h
      · exact unnamed_of (by simp [callTouches, *]) rfl h
      · obtain ⟨rfl, rfl⟩ := Prod.mk.inj h
        exact .condCreate hl ‹_›
  | condWait k =>
    simp only [call] at h
    rcases elim_cases h with ⟨hc, h⟩ | ⟨c, hc, h⟩
    · exact unnamed_of (by simp [callTouches, hc]) rfl (Option.some.inj h)
    · simp only [condWait] at h
      split at h
      · rename_i hp
        obtain ⟨rfl, rfl, hrun⟩ := sleep_some h
        by_cases hi : (a.locks (a.conds c).lock).inuse = true
        · rw [if_pos hi] at hrun ⊢
          exact .condWait hc hp hi hrun
        · rw [if_neg hi] at hrun ⊢
          exact .condWaitUnlocked hc hp (by simpa using hi) hrun
      · cases h
  | condSignal k =>
    simp only [call] at h
    rcases elim_cases h with ⟨hc, h⟩ | ⟨c, hc, h⟩
    · exact unnamed_of (by simp [callTouches, hc]) rfl (Option.some.inj h)
    · simp only [condSignal, Option.some.injEq] at h
      split at h
      · obtain ⟨rfl, rfl⟩ := Prod.mk.inj h
        exact .condSignal hc ‹_›
      · obtain ⟨rfl, rfl⟩ := Prod.mk.inj h
        exact .signalRefused hc ‹_›
  | condBroadcast k =>
    simp only [call] at h
    rcases elim_cases h with ⟨hc, h⟩ | ⟨c, hc, h⟩
    · exact unnamed_of (by simp [callTouches, hc]) rfl (Option.some.inj h)
    · simp only [condBroadcast, Option.some.injEq] at h
      split at h
      · obtain ⟨rfl, rfl⟩ := Prod.mk.inj h
        exact .condBroadcast hc ‹_›
      · obtain ⟨rfl, rfl⟩ := Prod.mk.inj h
        exact .broadcastRefused hc ‹_›
  | shareCreatePage =>
    obtain ⟨rfl, rfl⟩ := Prod.mk.inj (Option.some.inj h)
    exact .shareCreatePage
  | shareMapPage k =>
    obtain ⟨rfl, rfl⟩ := Prod.mk.inj (Option.some.inj h)
    exact .shareMapPage

theorem resumes (h : a.afterSleep p stop = some (b, res)) : a.Resumes p stop b res := by
  cases stop with
  | condWait c =>
    simp only [afterSleep] at h
    split at h
    · exact .acquires ‹_› (acquires h)
    · rename_i hi
      obtain ⟨rfl, rfl⟩ := Prod.mk.inj (Option.some.inj h)
      refine .returns fun c' he => ?_
      obtain rfl := Stop.condWait.inj he
      simpa using hi
  | _ =>
    obtain ⟨rfl, rfl⟩ := Prod.mk.inj (Option.some.inj h)
    exact .returns fun _ he => by cases he

end

/-! ## The cases of a step -/

/-- The ways in which a step goes. -/
inductive Steps (a : System) (v : Int) : Event → System → Return → Prop where
  | timer {p : Pid} {ps : List Pid} (hq : a.queue .runQueue = p :: ps) :
    Steps a v .timer (a.move p .runQueue .runQueue) none
  | contextSwitch {p : Pid} {ps : List Pid} (hq : a.queue .runQueue = p :: ps) :
    Steps a v .contextSwitch (a.move p .runQueue .runQueue) none
  | exit {p q : Pid} {ps : List Pid} (hq : a.queue .runQueue = p :: q :: ps) :
    Steps a v .exit ((a.move p .runQueue .freepcbs).move q .runQueue .runQueue) none
  | forkFails {p : Pid} {ps : List Pid} (hq : a.queue .freepcbs = p :: ps) :
    Steps a v (.fork true false) (a.move p .freepcbs .freepcbs) none
  | fork {isUser loads : Bool} {p : Pid} {ps : List Pid} (hq : a.queue .freepcbs = p :: ps)
      (hl : (isUser && !loads) = false) :
    Steps a v (.fork isUser loads) (a.move p .freepcbs .runQueue) none
  | call {p : Pid} {ps : List Pid} {c : Call} {d : System} {res : Result}
      (hq : a.queue .runQueue = p :: ps) (hc : a.Calls p v c d res) :
    Steps a v (.call c) (d.setStopped p (res.stop c)) (res.value c)
  | resume {p : Pid} {ps : List Pid} {c : Call} {stop : Stop} {d : System} {res : Result}
      (hq : a.queue .runQueue = p :: ps) (hs : a.stopped p = some (c, stop))
      (hc : a.Resumes p stop d res) :
    Steps a v .resume (d.setStopped p (res.stop c)) (res.value c)

theorem steps {a b : System} {v : Int} {e : Event} {r : Return}
    (h : a.step v e = some (b, r)) : a.Steps v e b r := by
  cases e with
  | timer =>
    simp only [step] at h
    split at h
    · cases h
    · obtain ⟨rfl, rfl⟩ := Prod.mk.inj (Option.some.inj h)
      exact .timer ‹_›
  | contextSwitch =>
    simp only [step] at h
    split at h
    · cases h
    · obtain ⟨rfl, rfl⟩ := Prod.mk.inj (Option.some.inj h)
      exact .contextSwitch ‹_›
  | exit =>
    simp only [step] at h
    split at h
    · obtain ⟨rfl, rfl⟩ := Prod.mk.inj (Option.some.inj h)
      exact .exit ‹_›
    · cases h
  | fork isUser loads =>
    simp only [step] at h
    split at h
    · cases h
    · split at h
      · rename_i hl
        obtain ⟨rfl, rfl⟩ : isUser = true ∧ loads = false := by simpa using hl
        obtain ⟨rfl, rfl⟩ := Prod.mk.inj (Option.some.inj h)
        exact .forkFails ‹_›
      · rename_i hl
        obtain ⟨rfl, rfl⟩ := Prod.mk.inj (Option.some.inj h)
        exact .fork ‹_› (by rw [← Bool.not_eq_true]; exact hl)
  | call c =>
    simp only [step] at h
    split at h
    · cases h
    · obtain ⟨⟨d, res⟩, hc, hf⟩ := Option.map_eq_some_iff.mp h
      obtain ⟨rfl, rfl⟩ := Prod.mk.inj hf
      exact .call ‹_› (calls hc)
  | resume =>
    simp only [step] at h
    split at h
    · cases h
    · split at h
      · cases h
      · obtain ⟨⟨d, res⟩, hc, hf⟩ := Option.map_eq_some_iff.mp h
        obtain ⟨rfl, rfl⟩ := Prod.mk.inj hf
        exact .resume ‹_› ‹_› (resumes hc)

end System

end dlxos
