-- The interrupt level around the calls of `synch.c` and around `ProcessFork`.
-- A call gives back the level that it found, and it writes with interrupts
-- disabled, but there are branches that return too early, and writes that
-- come too late.
import DlxOs.Masks
import DlxOs.FailingCalls

namespace dlxos

open Function runs

variable {α β : Type} {k k' : Kernel} {m m' m1 m2 : Machine} {p : Pid} {e : Entry} {r : Return}
  {c : Call} {level i : Level} {l : LockId} {out : Outcome}

/-! ## Calls -/

/-- The level that a routine has kept while its process sleeps. -/
def Sleep.intrval : Sleep → Level
  | .semWait _ intrval | .lockAcquire _ intrval | .condWait _ intrval
  | .condAcquire _ intrval => intrval

/-- A routine that returns gives back the level. One that sleeps has it at
hand. -/
def Outcome.Keeps (level : Level) (out : Outcome) (k : Kernel) : Prop :=
  match out with
  | .returns _ => k.intrs = level
  | .sleeps place => place.intrval = level ∧ k.intrs = 15

/-- The routine keeps the level at which it starts, and it writes with
interrupts disabled. -/
def Balances (x : K Outcome) (k : Kernel) : Prop :=
  ∀ out k', x k = .ok (out, k') → out.Keeps k.intrs k' ∧ k'.exposed = k.exposed

theorem Balances.protect {f : Level → K Outcome} (h : ∀ i, Masks (Outcome.Keeps i) (f i)) :
    Balances (DisableIntrs >>= f) k :=
  fun _ _ hrun => Masks.enter h hrun

theorem Balances.fails (k : Kernel) (v : Int) : Balances (return .returns v) k := by
  rintro out k' ⟨⟩
  exact ⟨rfl, rfl⟩

/-- A wrapper that checks a handle. -/
theorem Balances.handle {max : Nat} {h : Int} (inuse : Fin max → Bool)
    {f : Fin max → K Outcome} {x : K Outcome}
    (hf : ∀ j, slot? max h = some j → inuse j = true → Balances (f j) k)
    (hx : x k = (slot? max h).elim (pure (.returns SYNC_FAIL) : K Outcome)
      (fun j => if inuse j then f j else pure (.returns SYNC_FAIL)) k) : Balances x k := by
  intro out k' hrun
  rw [hx] at hrun
  rcases hs : slot? max h with _ | j
  · rw [hs] at hrun
    exact Balances.fails k _ out k' hrun
  · rw [hs] at hrun
    by_cases hi : inuse j = true
    · simp only [Option.elim, hi, if_true] at hrun
      exact hf j hs hi out k' hrun
    · simp only [Option.elim, hi] at hrun
      exact Balances.fails k _ out k' hrun

theorem Masks.sleeps {P : Outcome → Kernel → Prop} {place : Sleep}
    (h : ∀ k, k.intrs = 15 → P (.sleeps place) k) (q : KQueue) (noLink noInsert : String) :
    Masks P (do
      dlxos.waitOn q noLink noInsert
      dlxos.ProcessSleep
      return .sleeps place : K Outcome) :=
  .bind (.waitOn q noLink noInsert) fun _ => .bind .ProcessSleep fun _ => .value h

theorem SemWait.balances (s : SemId) : Balances (SemWait s) k := by
  refine .protect fun i => .bind Calm.read.disabled fun k => .ite ?_ ?_
  · exact .sleeps (fun _ hk => ⟨rfl, hk⟩) _ _ _
  · exact .bind (.setSem s _) fun _ => .restore fun _ => id

theorem SemSignal.balances (s : SemId) : Balances (SemSignal s) k := by
  refine .protect fun i => .bind (.setSem s _) fun _ => .bind Calm.read.disabled fun k => ?_
  refine .ite ?_ (.restore fun _ => id)
  refine .bind (Calm.queueEmpty _).disabled fun _ => .ite ?_ (.restore fun _ => id)
  refine .bind (.takeFirst _ _) fun p => .bind (.ProcessWakeup p) fun _ => ?_
  exact .bind (.setSem s _) fun _ => .restore fun _ => id

/-- What `LockAcquire` comes to: it gives back the level, or it sleeps on the
lock. -/
def Acquired (level : Level) (out : Outcome) (k : Kernel) : Prop :=
  match out with
  | .returns _ => k.intrs = level
  | .sleeps place => (∃ l, place = .lockAcquire l level) ∧ k.intrs = 15

theorem Acquired.keeps (h : Acquired level out k) : out.Keeps level k := by
  cases out with
  | returns v => exact h
  | sleeps place =>
    obtain ⟨⟨l, rfl⟩, hk⟩ := h
    exact ⟨rfl, hk⟩

theorem LockAcquire.acquired (l : LockId) (h : LockAcquire l k = .ok (out, k')) :
    Acquired k.intrs out k' ∧ k'.exposed = k.exposed := by
  refine Masks.enter (P := Acquired) (fun i => ?_) h
  refine .bind Calm.GetCurrentPid.disabled fun p => .bind Calm.read.disabled fun k => ?_
  refine .ite (.restore fun _ => id) (.ite ?_ ?_)
  · exact .sleeps (fun _ hk => ⟨⟨l, rfl⟩, hk⟩) _ _ _
  · exact .bind (.setLock l _) fun _ => .restore fun _ => id

theorem LockHandleAcquire.acquired (lock : Int) (h : LockHandleAcquire lock k = .ok (out, k')) :
    Acquired k.intrs out k' ∧ k'.exposed = k.exposed := by
  rw [LockHandleAcquire, K.bind_ok (K.read_run k)] at h
  rcases hs : slot? MAX_LOCKS lock with _ | l
  · rw [hs] at h
    cases h
    exact ⟨rfl, rfl⟩
  · rw [hs] at h
    simp only [K.ite_run] at h
    split at h
    · exact LockAcquire.acquired l h
    · cases h
      exact ⟨rfl, rfl⟩

/-- A routine that asks for the owner of a lock. For another caller, it comes
back with interrupts disabled. -/
theorem Balances.owner (lock : Kernel → LockId) {fail : K Outcome}
    {rest : Level → Pid → Kernel → K Outcome} (hlock : lock (k.withIntrs 15) = lock k)
    (hp : k.intrs = 15 ∨ ∀ p, k.currentPCB = some p → (k.locks (lock k)).pid = p.val)
    (hfail : Masks (Outcome.Keeps 15) fail)
    (hrest : ∀ i p k, Masks (Outcome.Keeps i) (rest i p k)) :
    Balances (do
      let intrs ← DisableIntrs
      let pid ← GetCurrentPid
      let k ← K.read
      if (k.locks (lock k)).pid ≠ (pid : Int) then fail else rest intrs pid k) k := by
  intro out k' hrun
  rcases hcur : k.currentPCB with _ | p
  · obtain ⟨i, k1, h1, h2⟩ := K.bind_eq_ok hrun
    cases h1
    obtain ⟨x, k2, h3, _⟩ := K.bind_eq_ok h2
    obtain ⟨y, k4, h4, h5⟩ := K.bind_eq_ok h3
    cases h4
    rw [hcur] at h5
    cases h5
  · rw [owner_run lock hcur, hlock] at hrun
    split at hrun
    · rename_i hne
      have hk := hp.resolve_right fun hp => hne (hp p hcur)
      rw [hk]
      exact hfail (k.withIntrs 15) out k' rfl hrun
    · exact hrest k.intrs p _ (k.withIntrs 15) out k' rfl hrun

theorem LockRelease.balances (l : LockId)
    (hp : k.intrs = 15 ∨ ∀ p, k.currentPCB = some p → (k.locks l).pid = p.val) :
    Balances (LockRelease l) k := by
  refine .owner (fun _ => l) rfl hp (.value fun _ => id) fun i p k => ?_
  refine .bind (.setLock l _) fun _ => .bind (Calm.queueEmpty _).disabled fun _ => ?_
  refine .ite ?_ (.restore fun _ => id)
  refine .bind (.takeFirst _ _) fun p => .bind (.setLock l _) fun _ => ?_
  exact .bind (.ProcessWakeup p) fun _ => .restore fun _ => id

theorem LockHandleRelease.masked (lock : Int) : Masks Disabled (LockHandleRelease lock) := by
  intro k out k' hk hrun
  have hbal : Balances (LockHandleRelease lock) k := by
    refine .handle (h := lock) (fun j => (k.locks j).inuse)
      (fun j _ _ => LockRelease.balances j (.inl hk)) ?_
    rw [LockHandleRelease, K.bind_ok (K.read_run k)]
    cases slot? MAX_LOCKS lock <;> rfl
  obtain ⟨hkeep, he⟩ := hbal out k' hrun
  refine ⟨?_, he⟩
  cases out with
  | returns v => exact Eq.trans hkeep hk
  | sleeps place => exact hkeep.2

theorem CondWait.balances (c : CondId) : Balances (CondWait c) k := by
  refine .protect fun i => .bind Calm.GetCurrentPid.disabled fun p => ?_
  refine .bind Calm.read.disabled fun k => .stop ?_
  refine .bind (.waitOn _ _ _) fun _ => .bind (LockHandleRelease.masked _) fun _ => ?_
  exact .bind .ProcessSleep fun _ => .value fun _ hk => ⟨rfl, hk⟩

theorem CondSignal.balances (c : CondId)
    (hp : k.intrs = 15 ∨ ∀ p, k.currentPCB = some p → (k.locks (k.conds c).lock).pid = p.val) :
    Balances (CondSignal c) k := by
  refine .owner (fun k => (k.conds c).lock) rfl hp ?_ fun i p k => ?_
  · exact .bind (Calm.printf _).disabled fun _ => .value fun _ => id
  · refine .bind (Calm.queueEmpty _).disabled fun _ => .ite ?_ (.restore fun _ => id)
    exact .bind (.takeFirst _ _) fun p => .bind (.ProcessWakeup p) fun _ => .restore fun _ => id

theorem CondBroadcast.balances (c : CondId)
    (hp : k.intrs = 15 ∨ ∀ p, k.currentPCB = some p → (k.locks (k.conds c).lock).pid = p.val) :
    Balances (CondBroadcast c) k := by
  refine .owner (fun k => (k.conds c).lock) rfl hp ?_ fun i p k => ?_
  · exact .bind (Calm.printf _).disabled fun _ => .value fun _ => id
  · exact .bind (.wakeAll c _) fun _ => .restore fun _ => id

/-! ## Creation -/

/-- The routine creates an object: it takes the first one that is free, and
sets it up after it has given back the level. -/
def Creates {n : Nat} (inuse : Kernel → Fin n → Bool) (grab : Fin n → K Unit)
    (init : Fin n → K Int) (x : K Int) (k : Kernel) : Prop :=
  ∃ fail, x k = (firstUnused (inuse k)).elim (.ok (fail, k)) fun j =>
    (do
      grab j
      let _ ← RestoreIntrs k.intrs
      let _ ← init j
      return j.val : K Int) (k.withIntrs 15)

theorem SemCreate.creates (count : Int) (k : Kernel) :
    Creates (fun k s => (k.sems s).inuse) (fun s => setSem s fun m => { m with inuse := true })
      (fun s => SemInit s count) (SemCreate count) k := by
  refine ⟨SYNC_FAIL, ?_⟩
  rw [SemCreate, DisableIntrs, K.bind_ok (SetIntrs_run 15 k), K.bind_ok (K.read_run _)]
  cases h : firstUnused fun s => (k.sems s).inuse <;> simp only [Kernel.withIntrs_sems, h] <;> rfl

theorem LockCreate.creates (k : Kernel) :
    Creates (fun k l => (k.locks l).inuse) (fun l => setLock l fun k => { k with inuse := true })
      LockInit LockCreate k := by
  refine ⟨SYNC_FAIL, ?_⟩
  rw [LockCreate, DisableIntrs, K.bind_ok (SetIntrs_run 15 k), K.bind_ok (K.read_run _)]
  cases h : firstUnused fun l => (k.locks l).inuse <;> simp only [Kernel.withIntrs_locks, h] <;> rfl

theorem CondCreate.creates {lock : Int} (hl : slot? MAX_LOCKS lock = some l) (k : Kernel) :
    Creates (fun k c => (k.conds c).inuse)
      (fun c => setCond c fun _ => { lock := l, inuse := true }) CondInit (CondCreate lock) k := by
  refine ⟨INVALID_COND, ?_⟩
  simp only [CondCreate, hl]
  rw [DisableIntrs, K.bind_ok (SetIntrs_run 15 k), K.bind_ok (K.read_run _)]
  cases h : firstUnused fun c => (k.conds c).inuse <;> simp only [Kernel.withIntrs_conds, h] <;> rfl

theorem Creates.balances {n : Nat} {inuse : Kernel → Fin n → Bool} {grab : Fin n → K Unit}
    {init : Fin n → K Int} {x : K Int} (hx : Creates inuse grab init x k)
    (hu : k.intrs = 15 ∨ firstUnused (inuse k) = none)
    (hgrab : ∀ j, Masks Disabled (grab j)) (hinit : ∀ j, Masks Disabled (init j)) :
    Balances (returning x) k := by
  intro out k' hrun
  obtain ⟨v, k1, h1, h2⟩ := K.bind_eq_ok hrun
  cases h2
  obtain ⟨fail, hx⟩ := hx
  rw [hx] at h1
  rcases hf : firstUnused (inuse k) with _ | j
  · rw [hf] at h1
    cases h1
    exact ⟨rfl, rfl⟩
  · have hk := hu.resolve_right (by simp [hf])
    have hmask : Masks Disabled (do
        grab j
        let _ ← RestoreIntrs 15
        let _ ← init j
        return (j.val : Int) : K Int) :=
      .bind (hgrab j) fun _ => .bind .still fun _ => .bind (hinit j) fun _ => .value fun _ => id
    rw [hf, hk] at h1
    rw [hk]
    exact hmask (k.withIntrs 15) v k' rfl h1

theorem SemInit.masked (s : SemId) (count : Int) : Masks Disabled (SemInit s count) :=
  .bind (.queue _) fun _ => .bind (.setSem s _) fun _ => .value fun _ => id

theorem LockInit.masked (l : LockId) : Masks Disabled (LockInit l) :=
  .bind (.queue _) fun _ => .bind (.setLock l _) fun _ => .value fun _ => id

theorem CondInit.masked (c : CondId) : Masks Disabled (CondInit c) :=
  .bind (.queue _) fun _ => .value fun _ => id

/-- The new object is set up without protection. -/
theorem Creates.exposes {n : Nat} {inuse : Kernel → Fin n → Bool} {grab : Fin n → K Unit}
    {init : Fin n → K Int} {x : K Int} (hx : Creates inuse grab init x k) (hk : k.intrs ≠ 15)
    (hu : firstUnused (inuse k) ≠ none)
    (hinit : ∀ j k v k', k.intrs ≠ 15 → init j k = .ok (v, k') → k'.exposed = true)
    (h : returning x k = .ok (out, k')) : (∃ v, out = .returns v) ∧ k'.exposed = true := by
  obtain ⟨v, k1, h1, h2⟩ := K.bind_eq_ok h
  cases h2
  refine ⟨⟨v, rfl⟩, ?_⟩
  obtain ⟨j, hj⟩ := Option.ne_none_iff_exists'.mp hu
  obtain ⟨fail, hx⟩ := hx
  rw [hx, hj] at h1
  obtain ⟨_, k2, _, h1⟩ := K.bind_eq_ok h1
  obtain ⟨_, k3, hrestore, h1⟩ := K.bind_eq_ok h1
  obtain ⟨_, k4, hset, h1⟩ := K.bind_eq_ok h1
  cases h1
  cases hrestore
  refine hinit j _ _ _ ?_ hset
  exact hk

theorem SemInit.exposes (s : SemId) (count : Int) {v : Int} (hk : k.intrs ≠ 15)
    (h : SemInit s count k = .ok (v, k')) : k'.exposed = true := by
  cases h
  simp [hk]

theorem LockInit.exposes (l : LockId) {v : Int} (hk : k.intrs ≠ 15)
    (h : LockInit l k = .ok (v, k')) : k'.exposed = true := by
  cases h
  simp [hk]

theorem CondInit.exposes (c : CondId) {v : Int} (hk : k.intrs ≠ 15)
    (h : CondInit c k = .ok (v, k')) : k'.exposed = true := by
  cases h
  simp [hk]

/-! ## A fork -/

theorem ProcessFork.masked (isUser loads : Bool) : Masks Disabled (ProcessFork isUser loads) := by
  unfold dlxos.ProcessFork
  refine .protect <| .bind (Calm.queueEmpty _).disabled fun _ => .stop ?_
  refine .bind (Calm.firstObject _).disabled fun p => .bind (.removePcbLink p _) fun _ => ?_
  refine .bind (Calm.setPcb p _).disabled fun _ => .bind .still fun _ => ?_
  refine .bind (Calm.forkMemory p).disabled fun _ => .ite ?_ ?_
  · exact .bind (.ProcessFreeResources p) fun _ => .value fun _ => id
  · refine .bind (Calm.setPcb p _).disabled fun _ => .protect ?_
    refine .bind (.allocPcbLink p _) fun _ => .bind (.insertPcbLast _ p _) fun _ => ?_
    refine .bind .still fun _ => .bind Calm.read.disabled fun k => .ite ?_ (.value fun _ => id)
    refine .bind (Calm.disabled ?_) fun _ => .value fun _ => id
    exact .write fun _ => ⟨rfl, rfl⟩

/-- A fork whose loader does not fail works under protection wherever it moves
a process. -/
theorem ProcessFork.calm {isUser loads : Bool} (hl : (isUser && !loads) = false) :
    Calm (ProcessFork isUser loads) := by
  unfold dlxos.ProcessFork
  refine .protect fun i => .bind (Calm.queueEmpty _).disabled fun _ => .stop ?_
  refine .bind (Calm.firstObject _).disabled fun p => .bind (.removePcbLink p _) fun _ => ?_
  refine .bind (Calm.setPcb p _).disabled fun _ => .leave (.bind (.forkMemory p) fun _ => ?_)
  simp only [hl, Bool.false_eq_true, if_false]
  refine .bind (.setPcb p _) fun _ => .protect fun i => .bind (.allocPcbLink p _) fun _ => ?_
  refine .bind (.insertPcbLast _ p _) fun _ => .leave (.bind .read fun k => ?_)
  refine .ite (.bind (.write ?_) fun _ => .value _) (.value _)
  exact fun _ => ⟨rfl, rfl⟩

/-- A queue routine without protection leaves a trace, and no routine takes it
away. -/
theorem queue_exposes {f : Store KQueue Pid → α × Store KQueue Pid} {a : α}
    (h : K.queue f k = .ok (a, k')) :
    k'.exposed = (k.exposed || k.intrs != 15) ∧ k'.intrs = k.intrs := by
  cases h
  exact ⟨rfl, rfl⟩

theorem ProcessFreeResources.exposes {u : Unit} (hk : k.intrs ≠ 15)
    (h : ProcessFreeResources p k = .ok (u, k')) : k'.exposed = true := by
  obtain ⟨_, k1, h1, h⟩ := K.bind_eq_ok h
  obtain ⟨_, k2, h2, h⟩ := K.bind_eq_ok h
  obtain ⟨_, k3, h3, h⟩ := K.bind_eq_ok h
  obtain ⟨_, k4, h4, h5⟩ := K.bind_eq_ok h
  have he1 : k1.exposed = true := by
    obtain ⟨l, j, hq, hj⟩ := K.bind_eq_ok h1
    have hset := Calm.bind (.setPcbLink p l) (fun _ => .fatal _) j _ k1 hj
    rw [hset.2, (queue_exposes hq).1]
    simp [hk]
  have he2 := (Calm.setPcb p _ k1 _ k2 h2).2
  have he3 : k3.exposed = true := by
    obtain ⟨_, j, hread, h3⟩ := K.bind_eq_ok h3
    cases hread
    obtain ⟨_, i, hq, hi⟩ := K.bind_eq_ok h3
    rw [(Calm.fatal _ i _ k3 hi).2, (queue_exposes hq).1, he2, he1]
    rfl
  rw [(Calm.setPcb p _ k4 _ k' h5).2, (Calm.freeMemory p k3 _ k4 h4).2, he3]

/-- A fork whose loader fails frees the process again after it has given back
the level. -/
theorem ProcessFork.exposes {v : Int} (hk : k.intrs ≠ 15)
    (h : ProcessFork true false k = .ok (v, k')) : k'.exposed = true := by
  rw [ProcessFork, DisableIntrs, K.bind_ok (SetIntrs_run 15 k)] at h
  obtain ⟨_, k1, _, h⟩ := K.bind_eq_ok h
  rw [K.ite_run] at h
  split at h
  · cases h
  obtain ⟨p, k2, _, h⟩ := K.bind_eq_ok h
  obtain ⟨_, k3, _, h⟩ := K.bind_eq_ok h
  obtain ⟨_, k4, _, h⟩ := K.bind_eq_ok h
  obtain ⟨_, k5, hrestore, h⟩ := K.bind_eq_ok h
  obtain ⟨_, k6, hmem, h⟩ := K.bind_eq_ok h
  obtain ⟨_, k7, hfree, h⟩ := K.bind_eq_ok h
  cases h
  cases hrestore
  have hi := (Calm.forkMemory p _ _ _ hmem).1
  exact ProcessFreeResources.exposes (by rw [hi]; exact hk) hfree

/-! ## A trap -/

/-- The caller does not own the lock. -/
def Kernel.NotOwner (k : Kernel) (l : LockId) : Prop :=
  ∀ p, k.currentPCB = some p → (k.locks l).pid ≠ p.val

/-- The event reaches a branch that comes back with interrupts disabled, or
one that goes on with a shared structure after it has enabled them. -/
def Kernel.Slips (k : Kernel) : Event → Prop
  | .fork isUser loads => isUser = true ∧ loads = false
  | .call (.semCreate _) => firstUnused (fun s => (k.sems s).inuse) ≠ none
  | .call .lockCreate => firstUnused (fun l => (k.locks l).inuse) ≠ none
  | .call (.condCreate h) =>
    slot? MAX_LOCKS h ≠ none ∧ firstUnused (fun c => (k.conds c).inuse) ≠ none
  | .call (.lockRelease h) =>
    ∃ l, slot? MAX_LOCKS h = some l ∧ (k.locks l).inuse = true ∧ k.NotOwner l
  | .call (.condSignal h) | .call (.condBroadcast h) =>
    ∃ c, slot? MAX_CONDS h = some c ∧ (k.conds c).inuse = true ∧ k.NotOwner (k.conds c).lock
  | _ => False

theorem owns_or (hcur : k.currentPCB = some p) (h : k.intrs = 15 ∨ ¬ k.NotOwner l) :
    k.intrs = 15 ∨ ∀ q, k.currentPCB = some q → (k.locks l).pid = q.val := by
  refine h.imp_right fun h q hq => ?_
  obtain rfl : p = q := Option.some.inj (hcur.symm.trans hq)
  by_contra hne
  exact h fun r hr => by
    obtain rfl : p = r := Option.some.inj (hcur.symm.trans hr)
    exact hne

theorem trap.balances (hcur : k.currentPCB = some p) (hc : c.isSync = true)
    (h : k.intrs = 15 ∨ ¬ k.Slips (.call c)) : Balances (trap c) k := by
  cases c with
  | semCreate count =>
    exact (SemCreate.creates _ k).balances (h.imp_right not_not.mp) (fun s => .setSem s _)
      fun s => SemInit.masked s _
  | lockCreate =>
    exact (LockCreate.creates k).balances (h.imp_right not_not.mp) (fun l => .setLock l _)
      LockInit.masked
  | condCreate h' =>
    rcases hl : slot? MAX_LOCKS h' with _ | l
    · simp only [trap, CondCreate, hl]
      exact .fails k _
    · refine (CondCreate.creates hl k).balances (h.imp_right fun h => ?_) (fun c => .setCond c _)
        CondInit.masked
      by_contra hu
      exact h ⟨by simp [hl], hu⟩
  | semWait h' =>
    refine .handle (h := h') (fun j => (k.sems j).inuse) (fun j _ _ => SemWait.balances j) ?_
    rw [trap, SemHandleWait, K.bind_ok (K.read_run _)]
    cases slot? MAX_SEMS h' <;> rfl
  | semSignal h' =>
    refine .handle (h := h') (fun j => (k.sems j).inuse) (fun j _ _ => SemSignal.balances j) ?_
    rw [trap, SemHandleSignal, K.bind_ok (K.read_run _)]
    cases slot? MAX_SEMS h' <;> rfl
  | lockAcquire h' =>
    intro out k' hrun
    obtain ⟨hacq, he⟩ := LockHandleAcquire.acquired h' hrun
    exact ⟨hacq.keeps, he⟩
  | lockRelease h' =>
    refine .handle (h := h') (f := LockRelease) (fun j => (k.locks j).inuse)
      (fun j hj hi => ?_) ?_
    · refine LockRelease.balances j (owns_or hcur (h.imp_right fun h hno => ?_))
      exact h ⟨j, hj, hi, hno⟩
    · rw [trap, LockHandleRelease, K.bind_ok (K.read_run _)]
      cases slot? MAX_LOCKS h' <;> rfl
  | condWait h' =>
    refine .handle (h := h') (fun j => (k.conds j).inuse) (fun j _ _ => CondWait.balances j) ?_
    rw [trap, CondHandleWait, K.bind_ok (K.read_run _)]
    cases slot? MAX_CONDS h' <;> rfl
  | condSignal h' =>
    refine .handle (h := h') (f := CondSignal) (fun j => (k.conds j).inuse)
      (fun j hj hi => ?_) ?_
    · refine CondSignal.balances j (owns_or hcur (h.imp_right fun h hno => ?_))
      exact h ⟨j, hj, hi, hno⟩
    · rw [trap, CondHandleSignal, K.bind_ok (K.read_run _)]
      cases slot? MAX_CONDS h' <;> rfl
  | condBroadcast h' =>
    refine .handle (h := h') (f := CondBroadcast) (fun j => (k.conds j).inuse)
      (fun j hj hi => ?_) ?_
    · refine CondBroadcast.balances j (owns_or hcur (h.imp_right fun h hno => ?_))
      exact h ⟨j, hj, hi, hno⟩
    · rw [trap, CondHandleBroadcast, K.bind_ok (K.read_run _)]
      cases slot? MAX_CONDS h' <;> rfl
  | shareCreatePage | shareMapPage => cases hc

/-- A routine that asks for the owner of a lock, for another caller. -/
theorem owner_off (lock : Kernel → LockId) {fail : K Outcome}
    {rest : Level → Pid → Kernel → K Outcome} (hlock : lock (k.withIntrs 15) = lock k)
    (hcur : k.currentPCB = some p) (hp : (k.locks (lock k)).pid ≠ p.val)
    (hfail : ∀ k out k', fail k = .ok (out, k') → (∃ v, out = .returns v) ∧ k'.intrs = k.intrs)
    (h : (do
      let intrs ← DisableIntrs
      let pid ← GetCurrentPid
      let k ← K.read
      if (k.locks (lock k)).pid ≠ (pid : Int) then fail else rest intrs pid k : K Outcome) k =
      .ok (out, k')) : (∃ v, out = .returns v) ∧ k'.intrs = 15 := by
  rw [owner_run lock hcur, hlock, if_pos hp] at h
  exact hfail _ out k' h

theorem LockRelease.off (hcur : k.currentPCB = some p) (hp : (k.locks l).pid ≠ p.val)
    (h : LockRelease l k = .ok (out, k')) : (∃ v, out = .returns v) ∧ k'.intrs = 15 := by
  refine owner_off (fun _ => l) rfl hcur hp ?_ h
  rintro k out k' ⟨⟩
  exact ⟨⟨_, rfl⟩, rfl⟩

theorem trap.slips (hcur : k.currentPCB = some p) (hk : k.intrs ≠ 15) (h : k.Slips (.call c))
    (hrun : trap c k = .ok (out, k')) :
    (∃ v, out = .returns v) ∧ (k'.intrs = 15 ∨ k'.exposed = true) := by
  have hsay : ∀ k out k', (do
      printf "ERROR: The clock related to current cond has not been acquired in CondWait!\n"
      return .returns SYNC_FAIL : K Outcome) k = .ok (out, k') →
      (∃ v, out = .returns v) ∧ k'.intrs = k.intrs := by
    rintro k out k' ⟨⟩
    exact ⟨⟨_, rfl⟩, rfl⟩
  cases c with
  | semCreate count =>
    exact ((SemCreate.creates _ k).exposes hk h (fun s _ _ _ => SemInit.exposes s _)
      hrun).imp_right .inr
  | lockCreate =>
    exact ((LockCreate.creates k).exposes hk h (fun l _ _ _ => LockInit.exposes l)
      hrun).imp_right .inr
  | condCreate h' =>
    obtain ⟨l, hl⟩ := Option.ne_none_iff_exists'.mp h.1
    exact ((CondCreate.creates hl k).exposes hk h.2 (fun c _ _ _ => CondInit.exposes c)
      hrun).imp_right .inr
  | lockRelease h' =>
    obtain ⟨l, hl, hi, hp⟩ := h
    rw [trap, LockHandleRelease, K.bind_ok (K.read_run _), hl] at hrun
    simp only [hi, if_true] at hrun
    exact (LockRelease.off hcur (hp p hcur) hrun).imp_right .inl
  | condSignal h' =>
    obtain ⟨c, hc, hi, hp⟩ := h
    rw [trap, CondHandleSignal, K.bind_ok (K.read_run _), hc] at hrun
    simp only [hi, if_true] at hrun
    exact (owner_off (fun k => (k.conds c).lock) rfl hcur (hp p hcur) hsay hrun).imp_right .inl
  | condBroadcast h' =>
    obtain ⟨c, hc, hi, hp⟩ := h
    rw [trap, CondHandleBroadcast, K.bind_ok (K.read_run _), hc] at hrun
    simp only [hi, if_true] at hrun
    exact (owner_off (fun k => (k.conds c).lock) rfl hcur (hp p hcur) hsay hrun).imp_right .inl
  | semWait | semSignal | lockAcquire | condWait | shareCreatePage | shareMapPage => cases h

/-- A routine that goes on after a sleep gives back the level that it kept. -/
theorem afterSleep.keeps (place : Sleep) (h : afterSleep place k = .ok (out, k')) :
    out.Keeps place.intrval k' ∧ k'.exposed = k.exposed := by
  cases place with
  | semWait s i | lockAcquire l i | condAcquire c i =>
    cases h
    exact ⟨rfl, rfl⟩
  | condWait c i =>
    rw [afterSleep, RestoreIntrs, K.bind_ok (SetIntrs_run i k), K.bind_ok (K.read_run _)] at h
    obtain ⟨out1, k1, hacq, h⟩ := K.bind_eq_ok h
    obtain ⟨hkeep, he⟩ := LockHandleAcquire.acquired _ hacq
    cases out1 with
    | returns v =>
      cases h
      exact ⟨hkeep, he⟩
    | sleeps place =>
      obtain ⟨⟨l, rfl⟩, hk1⟩ := hkeep
      cases h
      exact ⟨⟨rfl, hk1⟩, he⟩

/-! ## Steps and runs -/

/-- The entry runs one of the routines of `synch.c`, or `ProcessFork`. -/
def Event.isRoutine : Event → Bool
  | .call c => c.isSync
  | .fork _ _ => true
  | _ => false

/-- After a part of a routine that process `p` runs: every write was made with
interrupts disabled, and where the routine has returned, the level is the one
with which it started. -/
structure LevelKept (p : Option Pid) (level : Level) (m : Machine) : Prop where
  masked : m.kernel.exposed = false
  level : (∀ q, p = some q → m.frames q = none) → m.kernel.intrs = level

/-- The routine that starts with `e` keeps the interrupt level in the part up to its return or its
first sleep, and in every later part. -/
structure Balanced (m : Machine) (e : Entry) (m' : Machine) : Prop where
  first : LevelKept m.kernel.currentPCB e.level m'
  later : ∀ p tr m1 level m2 r, m.kernel.currentPCB = some p → m'.frames p ≠ none →
    Run Machine.Step m' tr m1 →
    (∀ mv ∈ tr, mv.pre.kernel.currentPCB = some p → mv.label.2 = none) →
    m1.kernel.currentPCB = some p → m1.unexposed.step ⟨.resume, level⟩ = .ok (m2, r) →
    LevelKept (some p) e.level m2

/-- The process sleeps in a routine that has kept this level. -/
def Machine.KeepsLevel (m : Machine) (p : Pid) (level : Level) : Prop :=
  ∃ f, m.frames p = some f ∧ f.place.intrval = level ∧ f.level = 15

/-- The end of a part of a call. -/
theorem finish_cases (h : m.finish p c out k = .ok (m', r)) :
    m'.kernel.intrs = k.intrs ∧ m'.kernel.exposed = k.exposed ∧
      match out with
      | .returns v => m'.frames = update m.frames p none ∧ r = some (c, v)
      | .sleeps place => m'.frames = update m.frames p (some ⟨c, place, k.intrs⟩) ∧ r = none := by
  cases out with
  | returns v =>
    cases h
    exact ⟨rfl, rfl, rfl, rfl⟩
  | sleeps place =>
    cases h
    exact ⟨rfl, rfl, rfl, rfl⟩

theorem except_bind {γ δ : Type} {x : Except Halt γ} {f : γ → Except Halt δ} {d : δ}
    (h : x >>= f = .ok d) : ∃ c, x = .ok c ∧ f c = .ok d := by
  cases x with
  | error e => cases h
  | ok c => exact ⟨c, rfl, h⟩

theorem step_of_call (hcur : m.kernel.currentPCB = some p)
    (h : m.step ⟨.call c, level⟩ = .ok (m', r)) : ∃ out k',
      trap c (m.kernel.withIntrs level) = .ok (out, k') ∧ m.finish p c out k' = .ok (m', r) := by
  obtain ⟨⟨q, k0⟩, hq, h⟩ := except_bind h
  cases (GetCurrentPid_run (k := m.kernel.withIntrs level) hcur).symm.trans hq
  obtain ⟨⟨out, k'⟩, htrap, hfin⟩ := except_bind h
  exact ⟨out, k', htrap, hfin⟩

theorem step_of_resume {f : Frame} (hcur : m.kernel.currentPCB = some p)
    (hf : m.frames p = some f) (h : m.step ⟨.resume, level⟩ = .ok (m', r)) : ∃ out k',
      afterSleep f.place (m.kernel.withIntrs f.level) = .ok (out, k') ∧
      m.finish p f.call out k' = .ok (m', r) := by
  obtain ⟨⟨q, k0⟩, hq, h⟩ := except_bind h
  cases (GetCurrentPid_run (k := m.kernel.withIntrs level) hcur).symm.trans hq
  obtain ⟨⟨g, k1⟩, hg, h⟩ := except_bind h
  simp only [hf] at hg
  cases hg
  obtain ⟨⟨out, k'⟩, hafter, hfin⟩ := except_bind h
  exact ⟨out, k', hafter, hfin⟩

/-- What a part of a call leaves behind. -/
theorem finish_keeps {k0 : Kernel} (hk : out.Keeps level k' ∧ k'.exposed = k0.exposed)
    (h0 : k0.exposed = false) (h : m.finish p c out k' = .ok (m', r)) :
    LevelKept (some p) level m' ∧ (m'.frames p ≠ none → m'.KeepsLevel p level) ∧
      (m'.frames p = none ↔ r ≠ none) := by
  obtain ⟨hi, he, hout⟩ := finish_cases h
  cases out with
  | returns v =>
    obtain ⟨hf, rfl⟩ := hout
    refine ⟨⟨by rw [he, hk.2, h0], fun _ => hi.trans hk.1⟩, fun hn => ?_, by simp [hf]⟩
    exact absurd (by simp [hf]) hn
  | sleeps place =>
    obtain ⟨hf, rfl⟩ := hout
    obtain ⟨⟨hplace, h15⟩, hexp⟩ := hk
    refine ⟨⟨by rw [he, hexp, h0], fun hn => ?_⟩, fun _ => ?_, by simp [hf]⟩
    · have := hn p rfl
      simp [hf] at this
    · exact ⟨_, by rw [hf, update_self], hplace, h15⟩

/-- Other steps of the machine leave the stopped processes alone. -/
theorem step_frames (hne : ∀ c, e.event ≠ .call c) (hr : e.event ≠ .resume)
    (h : m.step e = .ok (m', r)) : m'.frames = m.frames ∧ r = none := by
  obtain ⟨event, lev⟩ := e
  cases event with
  | call c => exact absurd rfl (hne c)
  | resume => exact absurd rfl hr
  | _ =>
    obtain ⟨⟨_, _⟩, _, h⟩ := except_bind h
    cases h
    exact ⟨rfl, rfl⟩

/-- A sleeping process keeps the level of its routine until it returns. -/
theorem Machine.KeepsLevel.step {lab : Label} (h : m.KeepsLevel p level) (hs : m.Step lab m')
    (hret : m.kernel.currentPCB = some p → lab.2 = none) : m'.KeepsLevel p level := by
  obtain ⟨f, hf, hplace, h15⟩ := h
  obtain ⟨⟨event, lev⟩, r⟩ := lab
  -- a step of another process
  have hother : ∀ q c out k', q ≠ p → m.finish q c out k' = .ok (m', r) →
      m'.KeepsLevel p level := by
    intro q c out k' hq hfin
    obtain ⟨_, _, hout⟩ := finish_cases hfin
    have hframe : m'.frames p = m.frames p := by
      cases out <;> rw [hout.1, update_of_ne (Ne.symm hq)]
    exact ⟨f, hframe.trans hf, hplace, h15⟩
  cases event with
  | call c =>
    obtain ⟨q, hq, hnone⟩ := hs.1
    have hne : q ≠ p := by
      rintro rfl
      cases hnone.symm.trans hf
    obtain ⟨out, k', _, hfin⟩ := step_of_call hq hs.2
    exact hother q c out k' hne hfin
  | resume =>
    obtain ⟨q, hq, hsome⟩ := hs.1
    obtain ⟨g, hg⟩ := Option.ne_none_iff_exists'.mp hsome
    obtain ⟨out, k', hafter, hfin⟩ := step_of_resume hq hg hs.2
    by_cases hqp : q = p
    · subst hqp
      obtain rfl : g = f := Option.some.inj (hg.symm.trans hf)
      obtain ⟨hkeep, _⟩ := afterSleep.keeps g.place hafter
      obtain ⟨_, _, hout⟩ := finish_cases hfin
      cases out with
      | returns v => cases hout.2.symm.trans (hret hq)
      | sleeps place => exact ⟨_, by rw [hout.1, update_self], hkeep.1.trans hplace, hkeep.2⟩
    · exact hother q g.call out k' hqp hfin
  | _ =>
    obtain ⟨hframes, _⟩ := step_frames (by simp) (by simp) hs.2
    exact ⟨f, by rw [hframes, hf], hplace, h15⟩

theorem Machine.KeepsLevel.run {tr : List (Move Machine Label)} (h : m.KeepsLevel p level)
    (hr : Run Machine.Step m tr m')
    (hret : ∀ mv ∈ tr, mv.pre.kernel.currentPCB = some p → mv.label.2 = none) :
    m'.KeepsLevel p level := by
  induction hr with
  | nil => exact h
  | snoc hr hs ih =>
    refine (ih fun mv hmv => hret mv (by simp [hmv])).step hs fun hcur => ?_
    exact hret ⟨_, _, _⟩ (List.mem_append_right _ (List.mem_singleton_self _)) hcur

/-- A process that goes on gives back the level that it has kept. -/
theorem Machine.KeepsLevel.resume (h : m.KeepsLevel p level) (hcur : m.kernel.currentPCB = some p)
    {lev : Level} (hs : m.unexposed.step ⟨.resume, lev⟩ = .ok (m', r)) :
    LevelKept (some p) level m' := by
  obtain ⟨f, hf, hplace, _⟩ := h
  obtain ⟨out, k', hafter, hfin⟩ := step_of_resume (m := m.unexposed) hcur hf hs
  have hkeep := afterSleep.keeps f.place hafter
  rw [hplace] at hkeep
  exact (finish_keeps hkeep rfl hfin).1

theorem balanced_call (hr : m.Ready ⟨.call c, level⟩) (hc : c.isSync = true)
    (hs : m.unexposed.step ⟨.call c, level⟩ = .ok (m', r)) :
    Balanced m ⟨.call c, level⟩ m' ↔ level = 15 ∨ ¬ m.kernel.Slips (.call c) := by
  obtain ⟨p, hcur, _⟩ := hr
  obtain ⟨out, k', htrap, hfin⟩ := step_of_call (m := m.unexposed) hcur hs
  have hslips : (m.unexposed.kernel.withIntrs level).Slips (.call c) ↔
      m.kernel.Slips (.call c) := by
    cases c <;> exact Iff.rfl
  constructor
  · intro hbal
    by_contra hno
    rw [not_or, not_not] at hno
    obtain ⟨⟨v, rfl⟩, hbad⟩ := trap.slips (k := m.unexposed.kernel.withIntrs level) hcur hno.1
      (hslips.mpr hno.2) htrap
    obtain ⟨hi, hexp, hframes, _⟩ := finish_cases hfin
    have hlevel := hbal.first.level fun q hq => by
      obtain rfl : p = q := Option.some.inj (hcur.symm.trans hq)
      rw [hframes, update_self]
    rcases hbad with h15 | hbad
    · exact hno.1 (hlevel.symm.trans (hi.trans h15))
    · have := hbal.first.masked
      rw [hexp, hbad] at this
      cases this
  · intro hok
    have hkeep := trap.balances (k := m.unexposed.kernel.withIntrs level) hcur hc
      (hok.imp_right fun hno hsl => hno (hslips.mp hsl)) out k' htrap
    obtain ⟨hfirst, hstop, _⟩ := finish_keeps hkeep rfl hfin
    refine ⟨hcur ▸ hfirst, ?_⟩
    intro q tr m1 lev m2 r2 hq hasleep hrun hret hcur1 hs1
    obtain rfl : p = q := Option.some.inj (hcur.symm.trans hq)
    exact ((hstop hasleep).run hrun hret).resume hcur1 hs1

theorem balanced_fork {isUser loads : Bool} (hr : m.Ready ⟨.fork isUser loads, level⟩)
    (hs : m.unexposed.step ⟨.fork isUser loads, level⟩ = .ok (m', r)) :
    Balanced m ⟨.fork isUser loads, level⟩ m' ↔
      level = 15 ∨ ¬ m.kernel.Slips (.fork isUser loads) := by
  obtain ⟨⟨v, k'⟩, hfork, hend⟩ := except_bind hs
  cases hend
  have hawake : ∀ q, m.kernel.currentPCB = some q → m.unexposed.frames q = none := hr
  constructor
  · intro hbal
    by_contra hno
    rw [not_or, not_not] at hno
    obtain ⟨hlevel, rfl, rfl⟩ := hno
    have hexp := ProcessFork.exposes (k := m.unexposed.kernel.withIntrs level) hlevel hfork
    cases hexp.symm.trans hbal.first.masked
  · intro hok
    have hkeep : k'.intrs = level ∧ k'.exposed = false := by
      rcases hok with rfl | hno
      · exact ProcessFork.masked isUser loads (m.unexposed.kernel.withIntrs 15) v k' rfl hfork
      · refine ProcessFork.calm ?_ (m.unexposed.kernel.withIntrs level) v k' hfork
        cases isUser <;> cases loads <;> first | rfl | exact absurd ⟨rfl, rfl⟩ hno
    refine ⟨⟨hkeep.2, fun _ => hkeep.1⟩, ?_⟩
    intro q _ _ _ _ _ hq hasleep
    exact absurd (hawake q hq) hasleep

theorem interrupt_level_balanced_iff (hr : m.Ready e) (he : e.event.isRoutine = true)
    (hs : m.unexposed.step e = .ok (m', r)) :
    Balanced m e m' ↔ e.level = 15 ∨ ¬ m.kernel.Slips e.event := by
  obtain ⟨event, level⟩ := e
  cases event with
  | call c => exact balanced_call hr he hs
  | fork isUser loads => exact balanced_fork hr hs
  | _ => cases he

/-- The second process runs, and the first one owns a lock. -/
def lockedRun : List Event :=
  [.fork true true, .fork true true, .call .lockCreate, .call (.lockAcquire 0), .timer]

/-- The second process sleeps on the lock, at level 3. -/
theorem interrupt_level_of_a_sleep : ∃ m m', Reachable m ∧
    m.unexposed.step ⟨.call (.lockAcquire 0), 3⟩ = .ok (m', none) ∧
    Balanced m ⟨.call (.lockAcquire 0), 3⟩ m' := by
  obtain ⟨m, hm, hready, hstep⟩ := exists_reachable lockedRun
    (fun a => a.Ready (.call (.lockAcquire 0)) ∧
      (a.step 0 (.call (.lockAcquire 0))).map Prod.snd = some none) (by decide +kernel)
  have hr : m.Ready ⟨.call (.lockAcquire 0), 3⟩ := (hm.good.ready _).mpr hready
  have hgoes := Machine.step_sync hm.good.unexposed (e := ⟨.call (.lockAcquire 0), 3⟩) hr rfl rfl 0
  obtain ⟨⟨b, _⟩, hb, rfl⟩ := Option.map_eq_some_iff.mp hstep
  have hb' : m.unexposed.system.step 0 (.call (.lockAcquire 0)) = some (b, none) := hb
  rw [hb'] at hgoes
  obtain ⟨m', hf⟩ := hgoes
  exact ⟨m, m', hm, hf.run, (interrupt_level_balanced_iff hr rfl hf.run).mpr (.inr id)⟩

theorem release_leaves_interrupts_disabled : ∃ m m', Reachable m ∧
    m.Ready ⟨.call (.lockRelease 0), 0⟩ ∧
    m.unexposed.step ⟨.call (.lockRelease 0), 0⟩ = .ok (m', some (.lockRelease 0, SYNC_FAIL)) ∧
    m'.kernel.intrs = 15 ∧ ¬ Balanced m ⟨.call (.lockRelease 0), 0⟩ m' := by
  obtain ⟨m, hm, hcur, hready, hl, hp⟩ := exists_reachable lockedRun
    (fun a => a.current = some 30 ∧ a.Ready (.call (.lockRelease 0)) ∧ a.lock? 0 = some 0 ∧
      (a.locks 0).pid = 31) (by decide +kernel)
  have hr : m.Ready ⟨.call (.lockRelease 0), 0⟩ := (hm.good.ready _).mpr hready
  have hcur' : m.kernel.currentPCB = some 30 := hm.good.current.trans hcur
  have hi : (m.kernel.locks 0).inuse = true := (Option.filter_eq_some_iff.mp hl).2
  have hno : m.kernel.NotOwner 0 := by
    intro q hq
    obtain rfl : 30 = q := Option.some.inj (hcur'.symm.trans hq)
    change (m.system.locks 0).pid ≠ _
    rw [hp]
    decide
  have hfails : m.unexposed.Fails 30 (.lockRelease 0) := by
    intro l hl'
    obtain rfl : l = 0 := Option.some.inj (hl'.symm.trans hl)
    exact hno 30 hcur'
  have hr' : m.unexposed.Ready ⟨.call (.lockRelease 0), 0⟩ := hr
  obtain ⟨m', hnoop⟩ := noOp_of_givesUp hr' hcur' (trap_givesUp hcur' hfails trivial)
  refine ⟨m, m', hm, hr, hnoop.run, ?_, fun hbal => ?_⟩
  · obtain ⟨out, k', htrap, hfin⟩ := step_of_call (m := m.unexposed) hcur' hnoop.run
    have hrelease : LockRelease 0 (m.unexposed.kernel.withIntrs 0) = .ok (out, k') := by
      have hi' : ((m.unexposed.kernel.withIntrs 0).locks 0).inuse = true := hi
      rw [trap, LockHandleRelease, K.bind_ok (K.read_run _)] at htrap
      simpa only [show slot? MAX_LOCKS 0 = some 0 from rfl, hi', if_true] using htrap
    obtain ⟨_, h15⟩ := LockRelease.off (k := m.unexposed.kernel.withIntrs 0) hcur'
      (hno 30 hcur') hrelease
    exact (finish_cases hfin).1.trans h15
  · rcases (balanced_call hr rfl hnoop.run).mp hbal with h | h
    · cases h
    · exact h ⟨0, rfl, hi, hno⟩

end dlxos
