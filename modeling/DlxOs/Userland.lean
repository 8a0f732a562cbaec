-- The programs of the users on the kernel. Each of them is run by a process,
-- and goes on by a trap, or by a statement that reads or writes the shared
-- page. The kernel is entered for other reasons as well, and other processes
-- run on it.
import DlxOs.Renaming
import DlxOs.Runs

namespace dlxos

open Function runs monitor

/-- The objects that the kernel made for a program. -/
structure Binding (C M : Type) where
  lock : LockId
  cond : C → CondId
  sem : M → SemId
  cond_inj : Injective cond
  sem_inj : Injective sem

variable {P V C M X : Type} {L : P → Type} {a b : System} {x : Pid} {v : Int} {c : Call}
  {res : Result} {o : Op X V C M} {l : X}

namespace Binding

section

variable (B : Binding C M)

/-- The waiting queue of a place. -/
def queue : Place C M → KQueue
  | .lock => .lock B.lock
  | .cond c => .cond (B.cond c)
  | .sem m => .sem (B.sem m)

/-- The trap of an operation, and the place at which the process goes on after
it. -/
def call : Op X V C M → Option (Call × X)
  | .acquire l => some (.lockAcquire B.lock.val, l)
  | .release l => some (.lockRelease B.lock.val, l)
  | .wait c l => some (.condWait (B.cond c).val, l)
  | .signal c l => some (.condSignal (B.cond c).val, l)
  | .semWait m l => some (.semWait (B.sem m).val, l)
  | .semSignal m l => some (.semSignal (B.sem m).val, l)
  | .access _ | .done => none

/-- The objects were made, and each condition variable belongs to the lock. -/
structure Created (a : System) : Prop where
  lock : (a.locks B.lock).inuse = true
  conds : ∀ c, a.conds (B.cond c) = ⟨B.lock, true⟩
  sems : ∀ m, (a.sems (B.sem m)).inuse = true

/-- What the processes share, as the kernel keeps it. -/
def shared (a : System) (mem : V) : Shared Pid V C M where
  mem
  lock := a.lockView B.lock
  conds c := a.queue (.cond (B.cond c))
  sems m := a.semView (B.sem m)

/-- The place of a program at which a process stopped in the kernel. -/
inductive StopsAt : Stop → Place C M → Prop where
  | semWait (m : M) : StopsAt (.semWait (B.sem m)) (.sem m)
  | lockAcquire : StopsAt (.lockAcquire B.lock) .lock
  | condWait (c : C) : StopsAt (.condWait (B.cond c)) (.cond c)
  | condAcquire (c : C) : StopsAt (.condAcquire (B.cond c)) .lock

/-- The point to which a process comes as its call returns or goes to sleep. -/
inductive Comes (l : X) : Result → Point X C M → Prop where
  | returns : Comes l (.returns SYNC_SUCCESS) (.ready l)
  | sleeps {stop : Stop} {w : Place C M} (hw : B.StopsAt stop w) :
    Comes l (.sleeps stop) (.asleep w l)

end

variable {B : Binding C M}

theorem queue_wait (w : Place C M) : (B.queue w).isProc = false := by
  cases w <;> rfl

@[simp] theorem shared_queue (a : System) (mem : V) (w : Place C M) :
    (B.shared a mem).queue w = a.queue (B.queue w) := by
  cases w <;> rfl

@[simp] theorem shared_mem (a : System) (mem : V) : (B.shared a mem).mem = mem := rfl
@[simp] theorem shared_lock (a : System) (mem : V) :
    (B.shared a mem).lock = a.lockView B.lock := rfl
@[simp] theorem shared_sems (a : System) (mem : V) (m : M) :
    (B.shared a mem).sems m = a.semView (B.sem m) := rfl

@[simp] theorem shared_setStopped (a : System) (p : Pid) (y : Option (Call × Stop)) (mem : V) :
    B.shared (a.setStopped p y) mem = B.shared a mem := by
  simp only [shared, setStopped_lockView, setStopped_semView, System.setStopped_queue]

theorem shared_eq {mem : V} {s : Shared Pid V C M} (hm : s.mem = mem)
    (hlock : a.lockView B.lock = s.lock)
    (hconds : ∀ c, a.queue (.cond (B.cond c)) = s.conds c)
    (hsems : ∀ m, a.semView (B.sem m) = s.sems m) : B.shared a mem = s := by
  obtain ⟨_, lock, conds, sems⟩ := s
  subst hm
  simp only [shared, Shared.mk.injEq, true_and]
  exact ⟨hlock, funext hconds, funext hsems⟩

/-- Where the objects of the program are not touched, all stays as it is. -/
theorem shared_same (h : ∀ w, a.Same b (B.queue w)) (mem : V) :
    B.shared b mem = B.shared a mem :=
  shared_eq rfl (lockView_congr (h .lock)) (fun c => (h (.cond c)).2)
    fun m => semView_congr (h (.sem m))

theorem Created.grows (hB : B.Created a) (hg : a.Grows b) : B.Created b := by
  refine ⟨hg.locks _ hB.lock, fun c => ?_, fun m => hg.sems _ (hB.sems m)⟩
  have hc := hB.conds c
  rw [hg.conds _ (by rw [hc]), hc]

theorem Created.lock? (hB : B.Created a) : a.lock? B.lock.val = some B.lock :=
  lock?_some.mpr ⟨slot?_val _, hB.lock⟩

theorem Created.cond? (hB : B.Created a) (c : C) : a.cond? (B.cond c).val = some (B.cond c) :=
  cond?_some.mpr ⟨slot?_val _, by rw [hB.conds c]⟩

theorem Created.sem? (hB : B.Created a) (m : M) : a.sem? (B.sem m).val = some (B.sem m) :=
  sem?_some.mpr ⟨slot?_val _, hB.sems m⟩

theorem Created.stopQueue (hB : B.Created a) {stop : Stop} {w : Place C M}
    (h : B.StopsAt stop w) : a.stopQueue stop = B.queue w := by
  cases h with
  | condAcquire c =>
    simp only [System.stopQueue, hB.conds c]
    rfl
  | _ => rfl

/-- The calls of a program touch its objects only. -/
theorem Created.touches (hB : B.Created a) (hop : B.call o = some (c, l)) :
    a.callTouches c ≠ [] ∧ ∀ q ∈ a.callTouches c, ∃ w, q = B.queue w := by
  cases o <;> simp only [call, Option.some.injEq, Prod.mk.injEq, reduceCtorEq] at hop
  case wait c' l' =>
    obtain ⟨rfl, rfl⟩ := hop
    simp only [System.callTouches, hB.cond? c', hB.conds c']
    refine ⟨by simp, fun q hq => ?_⟩
    rcases List.mem_cons.mp hq with rfl | hq
    · exact ⟨.cond c', rfl⟩
    · exact ⟨.lock, List.mem_singleton.mp hq⟩
  case acquire | release =>
    obtain ⟨rfl, rfl⟩ := hop
    simp only [System.callTouches, hB.lock?]
    exact ⟨by simp, fun q hq => ⟨.lock, List.mem_singleton.mp hq⟩⟩
  case signal c' l' =>
    obtain ⟨rfl, rfl⟩ := hop
    simp only [System.callTouches, hB.cond? c']
    exact ⟨by simp, fun q hq => ⟨.cond c', List.mem_singleton.mp hq⟩⟩
  case semWait m l' | semSignal m l' =>
    obtain ⟨rfl, rfl⟩ := hop
    simp only [System.callTouches, hB.sem? m]
    exact ⟨by simp, fun q hq => ⟨.sem m, List.mem_singleton.mp hq⟩⟩

/-! ## The calls of a program -/

/-- An acquire takes the lock, or joins its queue. -/
theorem acquires {stop : Stop} (hok : (a.locks B.lock).PidOk) (hstop : B.StopsAt stop .lock)
    (hc : a.Acquires x B.lock stop b res) (mem : V) (l : X) :
    B.shared b mem = ((B.shared a mem).take x l).shared ∧
      B.Comes l res ((B.shared a mem).take x l).point := by
  have hview := (lockAcquire_view hok hc).1
  refine ⟨shared_eq rfl hview (fun c => ?_) fun m => ?_, ?_⟩
  · exact (System.Same.acquires hc (q := .cond (B.cond c)) (by simp)).2
  · exact semView_congr (System.Same.acquires hc (by simp))
  · have howner : ((B.shared a mem).lock.apply (.acquire x)).owner = some x ↔
        (b.locks B.lock).pid = x.val := by
      rw [shared_lock, ← hview]
      exact lockView_owner
    change B.Comes l res (if ((B.shared a mem).lock.apply (.acquire x)).owner = some x
      then .ready l else .asleep .lock l)
    cases hc with
    | owned hp =>
      rw [if_pos (howner.mpr hp)]
      exact .returns
    | sleeps hp ho hrun =>
      rw [if_neg fun h => hp (howner.mp h)]
      exact .sleeps hstop
    | takes ho =>
      rw [if_pos (howner.mpr (by simp))]
      exact .returns

theorem update_cond [DecidableEq C] (Q : KQueue → List Pid) (k k' : C) (xs : List Pid) :
    update Q (.cond (B.cond k)) xs (.cond (B.cond k')) =
      update (fun c => Q (.cond (B.cond c))) k xs k' := by
  by_cases hk : k' = k
  · subst hk
    simp
  · have hne : KQueue.cond (B.cond k') ≠ .cond (B.cond k) :=
      fun h => hk (B.cond_inj (KQueue.cond.inj h))
    rw [update_of_ne hne, update_of_ne hk]

theorem Created.update_sem [DecidableEq M] (hB : B.Created a) {m m' : M} {op : fifo.SemOp Pid}
    (h : b.semView (B.sem m') =
      (if a.sem? (B.sem m).val = some (B.sem m') then some op else none).elim
        (a.semView (B.sem m')) (a.semView (B.sem m')).apply) :
    b.semView (B.sem m') =
      update (fun m => a.semView (B.sem m)) m ((a.semView (B.sem m)).apply op) m' := by
  rw [h, hB.sem? m]
  by_cases hm : m' = m
  · subst hm
    simp
  · have hne : some (B.sem m) ≠ some (B.sem m') :=
      fun he => hm (B.sem_inj (Option.some.inj he)).symm
    rw [if_neg hne, update_of_ne hm]
    rfl

variable [DecidableEq C] [DecidableEq M]

/-- A call of a program does in the kernel what its operation does. -/
theorem Created.calls (hB : B.Created a) (hinv : Inv a) {inside : X → Bool} {d : Bool}
    (hobeys : o.Obeys inside d) (hown : d = true → (a.lockView B.lock).owner = some x)
    (hmax : ∀ m, (a.sems (B.sem m)).count + 1 < 2 ^ 31) (hop : B.call o = some (c, l))
    (hc : a.Calls x v c b res) (mem : V) :
    ∃ e, (B.shared a mem).effect x o = some e ∧ B.shared b mem = e.shared ∧
      B.Comes l res e.point := by
  have hlock := (lock_call hB.lock (hinv.locks _ hB.lock).pid hc).1
  have hsem := fun m => (sem_call (hB.sems m) (hinv.sems _ (hB.sems m)) hc).2.2
    fun _ => hmax m
  have hunnamed : a.callTouches c ≠ [] := (hB.touches hop).1
  cases o with
  | acquire l' =>
    obtain ⟨rfl, rfl⟩ := Prod.mk.inj (Option.some.inj hop)
    refine ⟨_, rfl, ?_⟩
    cases hc with
    | unnamed ht => exact absurd ht hunnamed
    | lockAcquire hl hb =>
      obtain rfl := Option.some.inj (hl.symm.trans hB.lock?)
      exact acquires (hinv.locks _ hB.lock).pid .lockAcquire hb mem l'
  | release l' =>
    obtain ⟨rfl, rfl⟩ := Prod.mk.inj (Option.some.inj hop)
    refine ⟨_, rfl, ?_⟩
    simp only [System.callLockOp, hB.lock?, if_true, Option.elim] at hlock
    refine ⟨shared_eq rfl hlock (fun k => ?_) fun m => ?_, ?_⟩
    · exact (System.Same.calls hc (q := .cond (B.cond k))
        (by simp [System.callTouches, hB.lock?])).2
    · exact hsem m
    · cases hc with
      | unnamed ht => exact absurd ht hunnamed
      | lockRelease hl hp => exact .returns
      | lockRefused hl hp =>
        obtain rfl := Option.some.inj (hl.symm.trans hB.lock?)
        exact absurd (lockView_owner.mp (hown hobeys.1)) hp
  | wait k l' =>
    obtain ⟨rfl, rfl⟩ := Prod.mk.inj (Option.some.inj hop)
    have ho := hown hobeys.1
    refine ⟨_, if_pos ho, ?_⟩
    simp only [System.callLockOp, hB.cond? k, Option.map_some, hB.conds k, if_true,
      Option.elim] at hlock
    cases hc with
    | unnamed ht => exact absurd ht hunnamed
    | condWait hk hp hi hrun =>
      obtain rfl := Option.some.inj (hk.symm.trans (hB.cond? k))
      refine ⟨shared_eq rfl hlock (fun k' => ?_) hsem, .sleeps (.condWait k)⟩
      have hgive := fun c => (System.Same.lockGive a (a.conds (B.cond k)).lock
        (q := .cond (B.cond c)) (by simp)).2
      rw [System.slept_waiting rfl, update_cond]
      simp only [hgive, shared]
    | condWaitUnlocked hk hp hi hrun =>
      obtain rfl := Option.some.inj (hk.symm.trans (hB.cond? k))
      rw [hB.conds k] at hi
      cases hi.symm.trans hB.lock
  | signal k l' =>
    obtain ⟨rfl, rfl⟩ := Prod.mk.inj (Option.some.inj hop)
    have ho := hown hobeys.1
    refine ⟨_, if_pos ho, ?_⟩
    cases hc with
    | unnamed ht => exact absurd ht hunnamed
    | condSignal hk hp =>
      obtain rfl := Option.some.inj (hk.symm.trans (hB.cond? k))
      refine ⟨shared_eq rfl hlock (fun k' => ?_) hsem, .returns⟩
      rw [System.wake_waiting rfl, update_cond]
      rfl
    | signalRefused hk hp =>
      obtain rfl := Option.some.inj (hk.symm.trans (hB.cond? k))
      rw [hB.conds k] at hp
      exact absurd (lockView_owner.mp ho) hp
  | semWait m l' =>
    obtain ⟨rfl, rfl⟩ := Prod.mk.inj (Option.some.inj hop)
    refine ⟨_, rfl, shared_eq rfl hlock (fun k => ?_) fun m' => ?_, ?_⟩
    · exact (System.Same.calls hc (q := .cond (B.cond k))
        (by simp [System.callTouches, hB.sem? m])).2
    · exact hB.update_sem (hsem m')
    · cases hc with
      | unnamed ht => exact absurd ht hunnamed
      | semSleeps hs hn hrun =>
        obtain rfl := Option.some.inj (hs.symm.trans (hB.sem? m))
        rw [if_pos (show ((B.shared a mem).sems m).count ≤ 0 from hn)]
        exact .sleeps (.semWait m)
      | semTakes hs hn =>
        obtain rfl := Option.some.inj (hs.symm.trans (hB.sem? m))
        rw [if_neg (show ¬ ((B.shared a mem).sems m).count ≤ 0 from Int.not_le.mpr hn)]
        exact .returns
  | semSignal m l' =>
    obtain ⟨rfl, rfl⟩ := Prod.mk.inj (Option.some.inj hop)
    refine ⟨_, rfl, shared_eq rfl hlock (fun k => ?_) fun m' => ?_, ?_⟩
    · exact (System.Same.calls hc (q := .cond (B.cond k))
        (by simp [System.callTouches, hB.sem? m])).2
    · exact hB.update_sem (hsem m')
    · cases hc with
      | unnamed ht => exact absurd ht hunnamed
      | semSignal hs => exact .returns
  | access f => cases hop
  | done => cases hop

end Binding

/-! ## The world -/

/-- The machine, and the programs that its processes run. -/
structure World (P : Type) (L : P → Type) (V : Type) where
  machine : Machine
  /-- The process that runs a program, from the first line to the exit. -/
  pid : P → Option Pid
  /-- The line that a program runs next. -/
  loc : ∀ p, L p
  mem : V

namespace World

/-- The process runs no program. -/
def Stranger (w : World P L V) (x : Pid) : Prop := ∀ p, w.pid p ≠ some x

variable [DecidableEq P]

/-- The machine goes on. A process that runs a program makes the traps of that
program, and exits at its end. The other ones do not name the objects. -/
inductive Step (g : Program P L V C M) (B : Binding C M) (w : World P L V) :
    Option Label → World P L V → Prop where
  /-- The timer, and the end of a sleep. -/
  | kernel {e : Entry} {r : Return} {m : Machine} (hs : w.machine.Step (e, r) m)
      (he : e.event = .timer ∨ e.event = .resume) :
    Step g B w (some (e, r)) { w with machine := m }
  | stranger {e : Entry} {r : Return} {m : Machine} (hs : w.machine.Step (e, r) m)
      (hx : ∀ x, w.machine.system.current = some x → w.Stranger x)
      (ht : ∀ c, e.event = .call c → ∀ q, B.queue q ∉ w.machine.system.callTouches c) :
    Step g B w (some (e, r)) { w with machine := m }
  | call {p : P} {x : Pid} {c : Call} {l : L p} {e : Entry} {r : Return} {m : Machine}
      (hs : w.machine.Step (e, r) m) (hx : w.machine.system.current = some x)
      (hp : w.pid p = some x) (hop : B.call (g.op p (w.loc p)) = some (c, l))
      (he : e.event = .call c) :
    Step g B w (some (e, r)) { w with machine := m, loc := update w.loc p l }
  | exit {p : P} {x : Pid} {e : Entry} {r : Return} {m : Machine}
      (hs : w.machine.Step (e, r) m) (hx : w.machine.system.current = some x)
      (hp : w.pid p = some x) (hop : g.op p (w.loc p) = .done) (he : e.event = .exit) :
    Step g B w (some (e, r)) { w with machine := m, pid := update w.pid p none }
  /-- A process comes to the first line of a program. -/
  | start {p : P} {x : Pid} (hx : w.machine.system.current = some x)
      (hf : w.machine.system.stopped x = none) (hs : w.Stranger x) (hp : w.pid p = none)
      (hl : w.loc p = g.start p) : Step g B w none { w with pid := update w.pid p (some x) }
  | access {p : P} {x : Pid} {f : V → V × L p} (hx : w.machine.system.current = some x)
      (hf : w.machine.system.stopped x = none) (hp : w.pid p = some x)
      (hop : g.op p (w.loc p) = .access f) :
    Step g B w none { w with mem := (f w.mem).1, loc := update w.loc p (f w.mem).2 }

/-- The objects were just made, and no program runs yet. -/
structure Starts (g : Program P L V C M) (B : Binding C M) (w : World P L V) : Prop where
  reachable : Reachable w.machine
  created : B.Created w.machine.system
  free : (w.machine.system.locks B.lock).pid = -1
  counts : ∀ m, (w.machine.system.sems (B.sem m)).count = g.count m
  empty : ∀ q, w.machine.system.queue (B.queue q) = []
  /-- No process is inside of a call that goes on with the lock. -/
  unused : ∀ x c stop, w.machine.system.stopped x = some (c, stop) →
    ∀ q, B.queue q ∉ w.machine.system.callTouches c
  pid : w.pid = fun _ => none
  loc : w.loc = g.start
  mem : w.mem = g.mem

end World

/-- The counts of the semaphores stay below the largest `int`. -/
def Bounded [DecidableEq P] [DecidableEq C] [DecidableEq M] (g : Program P L V C M) : Prop :=
  ∀ s, g.Reachable s → ∀ m, (s.shared.sems m).count + 1 < 2 ^ 31

end dlxos
