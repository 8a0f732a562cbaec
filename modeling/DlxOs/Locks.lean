-- Locks over whole runs, from the call that created the lock on. The owner is
-- the process that got the lock and has not let it go, and processes get the
-- lock in the order in which they asked for it.
import DlxOs.Exec

namespace dlxos

open Function runs

/-- The process whose number is in the lock. -/
def System.owner (a : System) (l : LockId) : Option Pid :=
  slot? PROCESS_MAX_PROCS (a.locks l).pid

/-- The process that asks in a step for a lock that it does not own. It does
so in `LockHandleAcquire`, and at the end of a wait on a condition variable of
the lock. -/
def System.asksFor (a : System) (l : LockId) (e : Event) : List Pid :=
  match a.lockOp l e with
  | some (.acquire p) => if a.owner l = some p then [] else [p]
  | _ => []

/-- The process that a step makes the owner. -/
def System.obtains (a b : System) (l : LockId) : List Pid :=
  if b.owner l = a.owner l then [] else (b.owner l).toList

variable {a b : System} {l : LockId} {v : Int} {e : Event} {r : Return} {p : Pid} {c : Call}
  {res : Result} {m m' : Machine} {lab : Label} {tr : List (Move Machine Label)}

/-! ## One step -/

/-- A new lock is free, and nobody waits for it. -/
theorem Inv.lock_start (h : Inv a)
    (hs : a.step v (.call .lockCreate) = some (b, some (.lockCreate, (l.val : Int)))) :
    (b.locks l).inuse = true ∧ b.owner l = none ∧ b.queue (.lock l) = [] := by
  rcases step_lockCreate hs with hr | ⟨l', hu, hr, hl, hq⟩
  · have : (l.val : Int) = SYNC_FAIL := by simpa using hr
    simp only [SYNC_FAIL] at this
    omega
  · have hval : (l.val : Int) = l'.val := by simpa using hr
    obtain rfl : l = l' := Fin.ext (by omega)
    refine ⟨by rw [hl], by rw [System.owner, hl]; rfl, ?_⟩
    rw [hq]
    exact h.unused (q := .lock l) rfl hu

theorem asksFor_eq (a : System) (l : LockId) (e : Event) :
    a.asksFor l e = (a.lockOp l e).elim [] (a.lockView l).asks := by
  unfold System.asksFor
  rcases a.lockOp l e with _ | op
  · rfl
  · cases op <;> rfl

/-- First come, first served. -/
theorem Inv.asks_step (h : Inv a) (hl : (a.locks l).inuse = true)
    (hs : a.step v e = some (b, r)) {asked obtained : List Pid}
    (hq : asked = obtained ++ a.queue (.lock l)) :
    asked ++ a.asksFor l e = obtained ++ a.obtains b l ++ b.queue (.lock l) := by
  have hok := h.locks l hl
  obtain ⟨hview, _, _⟩ := lock_step hl hok.pid hs
  rw [asksFor_eq]
  rcases hop : a.lockOp l e with _ | op
  · rw [hop] at hview
    have h1 : b.owner l = a.owner l := congrArg fifo.Lock.owner hview
    have h2 : b.queue (.lock l) = a.queue (.lock l) := congrArg fifo.Lock.waiting hview
    simp [System.obtains, h1, h2, hq]
  · rw [hop] at hview
    have hfifo := fifo.Lock.asks_eq hok.view op hq
    simp only [Option.elim] at hview ⊢
    rw [← hview] at hfifo
    exact hfifo

theorem acquires_returns {n : Int} {stop : Stop} (hs : a.Acquires p l stop b (.returns n)) :
    b.owner l = some p := by
  apply slot?_eq_some.mpr
  cases hs with
  | owned hp => exact hp
  | takes ho => simp

/-- Only calls return. -/
theorem step_silent (hs : a.step v e = some (b, r)) (he : (∀ c, e ≠ .call c) ∧ e ≠ .resume) :
    r = none := by
  cases System.steps hs with
  | call => exact absurd rfl (he.1 _)
  | resume => exact absurd rfl he.2
  | _ => rfl

/-- A call that ends with the lock: an acquire, or a wait on a condition
variable of the lock. -/
def System.Gets (a : System) (l : LockId) (r : Return) : Prop :=
  r = some (.lockAcquire l.val, SYNC_SUCCESS) ∨
    ∃ c : CondId, (a.conds c).lock = l ∧ r = some (.condWait c.val, SYNC_SUCCESS)

/-- Where such a call returns, its process owns the lock. -/
theorem Inv.gets_step (h : Inv a) (hl : (a.locks l).inuse = true)
    (hs : a.step v e = some (b, r)) (hp : a.current = some p) (hr : a.Gets l r) :
    b.owner l = some p := by
  cases e with
  | call c =>
    obtain ⟨p', d, res, hp', hc, rfl, rfl⟩ := step_call hs
    obtain rfl : p = p' := Option.some.inj (hp.symm.trans hp')
    rcases res with n | stop
    swap
    · rcases hr with hr | ⟨k, hk, hr⟩ <;> cases hr
    obtain ⟨rfl, rfl⟩ | ⟨k, hk, rfl, rfl⟩ : c = .lockAcquire l.val ∧ n = SYNC_SUCCESS ∨
        ∃ k : CondId, (a.conds k).lock = l ∧ c = .condWait k.val ∧ n = SYNC_SUCCESS := by
      simpa [Result.value, System.Gets] using hr
    · cases hc with
      | @lockAcquire _ l' _ _ hl? hb =>
        obtain rfl : l = l' := by simpa [slot?_val] using (lock?_some.mp hl?).1
        change d.owner l = some p
        exact acquires_returns hb
    · -- a wait that begins does not return at once
      cases hc
  | resume =>
    obtain ⟨p', c, stop, d, res, hres, hc, rfl, rfl⟩ := step_resume hs
    obtain ⟨hp', hstop⟩ := resuming_some.mp hres
    obtain rfl : p = p' := Option.some.inj (hp.symm.trans hp')
    have hm := h.matched hstop
    -- a process that was woken on the lock owns it
    have hwoken : a.stopQueue stop = .lock l → a.owner l = some p := fun hq =>
      slot?_eq_some.mpr ((h.locks l hl).woken p ⟨c, stop, hstop, hq⟩ (h.waits_none hp rfl))
    rcases res with n | stop'
    swap
    · rcases hr with hr | ⟨k, hk, hr⟩ <;> cases hr
    obtain ⟨rfl, rfl⟩ | ⟨k, hk, rfl, rfl⟩ : c = .lockAcquire l.val ∧ n = SYNC_SUCCESS ∨
        ∃ k : CondId, (a.conds k).lock = l ∧ c = .condWait k.val ∧ n = SYNC_SUCCESS := by
      simpa [Result.value, System.Gets] using hr
    · cases stop with
      | lockAcquire l' =>
        obtain rfl : l = l' := by simpa [slot?_val] using (lock?_some.mp hm).1
        cases hc with
        | returns => exact hwoken rfl
      | _ => cases hm
    · cases stop with
      | condWait k' =>
        obtain rfl : k = k' := by simpa [slot?_val] using (cond?_some.mp hm).1
        cases hc with
        | returns hno =>
          have hnot := hno k rfl
          rw [hk, hl] at hnot
          cases hnot
        | acquires hi hb =>
          rw [hk] at hb
          change d.owner l = some p
          exact acquires_returns hb
      | condAcquire k' =>
        obtain rfl : k = k' := by simpa [slot?_val] using (cond?_some.mp hm.1).1
        cases hc with
        | returns => exact hwoken (by rw [System.stopQueue, hk])
      | _ => cases hm
  | timer | contextSwitch | exit | fork =>
    have hnone : r = none := step_silent hs (by simp)
    subst hnone
    rcases hr with hr | ⟨k, hk, hr⟩ <;> cases hr

/-- What releases a lock: a call of `LockHandleRelease`, or of
`CondHandleWait` for a condition variable of the lock. -/
def System.Releases (a : System) (l : LockId) (e : Event) : Prop :=
  e = .call (.lockRelease l.val) ∨
    ∃ c : CondId, (a.conds c).inuse = true ∧ (a.conds c).lock = l ∧ e = .call (.condWait c.val)

theorem releases_of_lockOp (h : a.lockOp l e = some (.release p)) :
    a.current = some p ∧ a.Releases l e := by
  cases e with
  | call c =>
    simp only [System.lockOp] at h
    obtain ⟨p', hp, h⟩ := Option.bind_eq_some_iff.mp h
    cases c with
    | lockRelease k =>
      simp only [System.callLockOp] at h
      split at h
      · rename_i hk
        obtain rfl : p' = p := by simpa using h
        exact ⟨hp, .inl (by rw [slot?_eq_some.mp (lock?_some.mp hk).1])⟩
      · cases h
    | condWait k =>
      simp only [System.callLockOp] at h
      split at h
      · rename_i hk
        obtain rfl : p' = p := by simpa using h
        obtain ⟨c, hc, hl⟩ := Option.map_eq_some_iff.mp hk
        obtain ⟨hslot, hi⟩ := cond?_some.mp hc
        exact ⟨hp, .inr ⟨c, hi, hl, by rw [slot?_eq_some.mp hslot]⟩⟩
      · cases h
    | lockAcquire k =>
      simp only [System.callLockOp] at h
      split at h <;> cases h
    | _ => cases h
  | resume =>
    simp only [System.lockOp] at h
    split at h
    · split at h <;> cases h
    · cases h
  | _ => cases h

/-- The owner stays the owner until it lets the lock go. -/
theorem Inv.keeps_step (h : Inv a) (hl : (a.locks l).inuse = true)
    (hs : a.step v e = some (b, r)) (hp : a.owner l = some p)
    (hno : a.current = some p → ¬ a.Releases l e) : b.owner l = some p := by
  obtain ⟨hview, _, _⟩ := lock_step hl (h.locks l hl).pid hs
  rcases hop : a.lockOp l e with _ | op
  · rw [hop] at hview
    exact (congrArg fifo.Lock.owner hview).trans hp
  · rw [hop] at hview
    refine (congrArg fifo.Lock.owner hview).trans (fifo.Lock.owner_apply hp ?_)
    rintro rfl
    obtain ⟨hcur, hrel⟩ := releases_of_lockOp hop
    exact hno hcur hrel

/-! ## Runs -/

/-- A run from the call that created the lock on. -/
def LockRun (l : LockId) (tr : List (Move Machine Label)) (m : Machine) : Prop :=
  ∃ m0 level m1, Reachable m0 ∧
    m0.Step (⟨.call .lockCreate, level⟩, some (.lockCreate, (l.val : Int))) m1 ∧
    Run Machine.Step m1 tr m

/-- A call of process `p` ends with the lock. -/
def Enters (l : LockId) (p : Pid) (mv : Move Machine Label) : Prop :=
  mv.pre.kernel.currentPCB = some p ∧ mv.pre.system.Gets l mv.label.2

/-- Process `p` calls a routine that releases the lock. -/
def Leaves (l : LockId) (p : Pid) (mv : Move Machine Label) : Prop :=
  mv.pre.kernel.currentPCB = some p ∧ mv.pre.system.Releases l mv.label.1.event

/-- Process `p` got the lock, and it has not let it go since. -/
def InSession (l : LockId) (p : Pid) (tr : List (Move Machine Label)) : Prop :=
  ∃ tr1 mv tr2, tr = tr1 ++ mv :: tr2 ∧ Enters l p mv ∧ ∀ mv' ∈ tr2, ¬ Leaves l p mv'

/-- The processes that asked for the lock, in this order. -/
def asked (l : LockId) (tr : List (Move Machine Label)) : List Pid :=
  tr.flatMap fun mv => mv.pre.system.asksFor l mv.label.1.event

/-- The processes that became the owner, in this order. -/
def obtained (l : LockId) (tr : List (Move Machine Label)) : List Pid :=
  tr.flatMap fun mv => mv.pre.system.obtains mv.post.system l

structure LockSafe (l : LockId) (tr : List (Move Machine Label)) (m : Machine) : Prop where
  session : ∀ p, InSession l p tr → (m.kernel.locks l).pid = p.val
  one : ∀ p q, InSession l p tr → InSession l q tr → p = q
  success : ∀ mv ∈ tr, ∀ p, mv.pre.kernel.currentPCB = some p →
    mv.label.2 = some (.lockAcquire l.val, SYNC_SUCCESS) → (mv.post.kernel.locks l).pid = p.val
  waiting : m.queue (.lock l) ≠ [] → 0 ≤ (m.kernel.locks l).pid ∧
    ∀ p : Pid, (m.kernel.locks l).pid = p.val → p ∉ m.queue (.lock l)
  /-- Who asked is who obtained the lock, and then who waits. -/
  order : asked l tr = obtained l tr ++ m.queue (.lock l)

theorem InSession.snoc {mv : Move Machine Label} (h : InSession l p (tr ++ [mv])) :
    Enters l p mv ∨ InSession l p tr ∧ ¬ Leaves l p mv := by
  obtain ⟨tr1, mv', tr2, he, henters, hno⟩ := h
  rcases List.eq_nil_or_concat tr2 with rfl | ⟨tr3, x, rfl⟩
  · obtain ⟨_, hmv⟩ := List.append_inj' he rfl
    obtain rfl : mv = mv' := by simpa using hmv
    exact .inl henters
  · rw [List.concat_eq_append, ← List.cons_append, ← List.append_assoc] at he
    obtain ⟨rfl, hmv⟩ := List.append_inj' he rfl
    obtain rfl : mv = x := by simpa using hmv
    exact .inr ⟨⟨tr1, mv', tr3, rfl, henters, fun y hy => hno y (by simp [hy])⟩,
      hno mv (by simp)⟩

/-- The machine after the lock was created. -/
theorem LockRun.start {m0 m1 : Machine} {level : Level} (h : Reachable m0)
    (hs : m0.Step (⟨.call .lockCreate, level⟩, some (.lockCreate, (l.val : Int))) m1) :
    Good m1 ∧ (m1.kernel.locks l).inuse = true ∧ m1.system.owner l = none ∧
      m1.queue (.lock l) = [] := by
  obtain ⟨⟨_, v, hv⟩, hf⟩ := h.good.step hs
  obtain ⟨h1, h2, h3⟩ := h.good.inv.lock_start hv
  exact ⟨hf.good, h1, h2, h3⟩

/-- Once created, a lock stays in use. -/
theorem Good.lock_inuse (h : Good m) (hs : m.Step lab m') (hl : (m.kernel.locks l).inuse = true) :
    (m'.kernel.locks l).inuse = true := by
  obtain ⟨_, v, hv⟩ := (h.step hs).1
  exact (h.inv.grows hv).locks l hl

/-- What the steps of a run keep about the owner of the lock. -/
structure HeldRight (l : LockId) (tr : List (Move Machine Label)) (m : Machine) : Prop where
  session : ∀ p, InSession l p tr → m.system.owner l = some p
  success : ∀ mv ∈ tr, ∀ p, mv.pre.kernel.currentPCB = some p →
    mv.label.2 = some (.lockAcquire l.val, SYNC_SUCCESS) → mv.post.system.owner l = some p
  order : asked l tr = obtained l tr ++ m.queue (.lock l)

theorem HeldRight.start (hq : m.queue (.lock l) = []) : HeldRight l [] m where
  session := by
    rintro p ⟨tr1, mv, tr2, he, _⟩
    simp at he
  success := by simp
  order := by simp [asked, obtained, hq]

theorem HeldRight.step (h : HeldRight l tr m) (hg : Good m) (hl : (m.kernel.locks l).inuse = true)
    (hs : m.Step lab m') : HeldRight l (tr ++ [⟨m, lab, m'⟩]) m' := by
  obtain ⟨⟨_, v, hv⟩, _⟩ := hg.step hs
  refine ⟨?_, ?_, ?_⟩
  · intro p hp
    rcases hp.snoc with ⟨hcur, hgets⟩ | ⟨hp, hno⟩
    · exact hg.inv.gets_step hl hv (hg.current ▸ hcur) hgets
    · refine hg.inv.keeps_step hl hv (h.session p hp) fun hcur hrel => hno ⟨?_, hrel⟩
      rw [hg.current, hcur]
  · intro mv hmv p hp hr
    rcases List.mem_append.mp hmv with hmv | hmv
    · exact h.success mv hmv p hp hr
    · obtain rfl : mv = ⟨m, lab, m'⟩ := by simpa using hmv
      exact hg.inv.gets_step hl hv (hg.current ▸ hp) (.inl hr)
  · have := hg.inv.asks_step hl hv h.order
    simpa [asked, obtained] using this

theorem LockRun.held (h : LockRun l tr m) :
    Good m ∧ (m.kernel.locks l).inuse = true ∧ HeldRight l tr m := by
  obtain ⟨m0, level, m1, h0, hs0, hrun⟩ := h
  obtain ⟨hg1, hl1, _, hq1⟩ := LockRun.start h0 hs0
  refine hrun.rule (I := fun tr m => Good m ∧ (m.kernel.locks l).inuse = true ∧
    HeldRight l tr m) ⟨hg1, hl1, .start hq1⟩ ?_
  rintro tr t lab u _ ⟨hg, hl, hheld⟩ hs
  exact ⟨(hg.step hs).2.good, hg.lock_inuse hs hl, hheld.step hg hl hs⟩

theorem lock_safety_and_handoff (h : LockRun l tr m) : LockSafe l tr m := by
  obtain ⟨hg, hl, hheld⟩ := h.held
  have hpid : ∀ {a : System} {p : Pid}, a.owner l = some p → (a.locks l).pid = p.val :=
    fun h => slot?_eq_some.mp h
  have hok := hg.inv.locks l hl
  refine ⟨fun p hp => hpid (hheld.session p hp), fun p q hp hq => ?_,
    fun mv hmv p hp hr => hpid (hheld.success mv hmv p hp hr), fun hne => ?_, hheld.order⟩
  · exact Option.some.inj ((hheld.session p hp).symm.trans (hheld.session q hq))
  · refine ⟨?_, fun p hp => hok.view.owner p (slot?_eq_some.mpr hp)⟩
    rcases hown : m.system.owner l with _ | p
    · exact absurd (hok.view.free hown) hne
    · have := hpid hown
      simp only [system_locks] at this
      omega

/-- Three processes ask for a lock, and the first one releases it. -/
def lockRun : List Event :=
  [.fork true true, .fork true true, .fork true true, .call .lockCreate, .call (.lockAcquire 0),
    .timer, .call (.lockAcquire 0), .call (.lockAcquire 0), .call (.lockRelease 0), .contextSwitch,
    .resume]

theorem lock_safety_of_a_run : ∃ tr m, LockRun 0 tr m ∧ obtained 0 tr = [31, 30] ∧
    m.queue (.lock 0) = [29] ∧ LockSafe 0 tr m := by
  obtain ⟨m0, level, m1, tr, m, h0, hs, hr, hobt, hq⟩ := exists_run_after 3 lockRun
    (.call .lockCreate, some (.lockCreate, 0))
    (fun ms a => (ms.flatMap fun mv => mv.pre.obtains mv.post 0) = [31, 30] ∧
      a.queue (.lock 0) = [29]) (by decide +kernel)
  have h : LockRun 0 tr m := ⟨m0, level, m1, h0, hs, hr⟩
  refine ⟨tr, m, h, ?_, hq, lock_safety_and_handoff h⟩
  simpa [obtained, systemMoves, List.flatMap_map] using hobt

end dlxos
