-- The processes of a monitor under other names. What an operation does to the
-- lock, the queues and the memory does not depend on the names, as long as no
-- other process has the name of the one that runs it.
import DlxOs.Monitor

namespace fifo

variable {P Q : Type} {f : P → Q}

/-! ## Locks and semaphores -/

@[simps -fullyApplied] def Lock.map (f : P → Q) (x : Lock P) : Lock Q :=
  ⟨x.owner.map f, x.waiting.map f⟩

@[simps -fullyApplied] def Sem.map (f : P → Q) (x : Sem P) : Sem Q := ⟨x.count, x.waiting.map f⟩

/-- The process that operates on a lock. -/
def LockOp.proc : LockOp P → P
  | .acquire p | .release p => p

def LockOp.map (f : P → Q) : LockOp P → LockOp Q
  | .acquire p => .acquire (f p)
  | .release p => .release (f p)

def SemOp.map (f : P → Q) : SemOp P → SemOp Q
  | .wait p => .wait (f p)
  | .signal => .signal

theorem Lock.apply_map [DecidableEq P] [DecidableEq Q] (x : Lock P) (op : LockOp P)
    (h : ∀ q, f q = f op.proc → q = op.proc) :
    (x.map f).apply (op.map f) = (x.apply op).map f := by
  obtain ⟨owner, waiting⟩ := x
  cases op with
  | acquire p =>
    rcases owner with _ | q
    · simp [Lock.apply, Lock.map, LockOp.map]
    · by_cases hq : q = p
      · subst hq
        simp [Lock.apply, Lock.map, LockOp.map]
      · have hf : f q ≠ f p := fun he => hq (h q he)
        simp [Lock.apply, Lock.map, LockOp.map, hq, hf]
  | release p =>
    rcases owner with _ | q
    · simp [Lock.apply, Lock.map, LockOp.map]
    · by_cases hq : q = p
      · subst hq
        simp [Lock.apply, Lock.map, LockOp.map, List.map_tail]
      · have hf : f q ≠ f p := fun he => hq (h q he)
        simp [Lock.apply, Lock.map, LockOp.map, hq, hf]

theorem Sem.apply_map (x : Sem P) (op : SemOp P) :
    (x.map f).apply (op.map f) = (x.apply op).map f := by
  obtain ⟨count, waiting⟩ := x
  cases op with
  | wait p => by_cases hc : count ≤ 0 <;> simp [Sem.apply, Sem.map, SemOp.map, hc]
  | signal =>
    rcases waiting with _ | ⟨w, ws⟩
    · simp [Sem.apply, Sem.map, SemOp.map]
    · by_cases hc : 0 < count + 1 <;> simp [Sem.apply, Sem.map, SemOp.map, hc]

theorem Sem.grants_map (x : Sem P) (op : SemOp P) :
    (x.map f).grants (op.map f) = (x.grants op).map f := by
  cases op with
  | wait p => by_cases hc : x.count ≤ 0 <;> simp [Sem.grants, Sem.map, SemOp.map, hc]
  | signal =>
    by_cases hc : 0 < x.count + 1 <;> simp [Sem.grants, Sem.map, SemOp.map, List.map_take, hc]

end fifo

namespace monitor

open Function

variable {P Q V C M X : Type} {f : P → Q} {p : P}

/-! ## What the processes share -/

@[simps -fullyApplied] def Shared.map (f : P → Q) (s : Shared P V C M) : Shared Q V C M :=
  ⟨s.mem, s.lock.map f, fun c => (s.conds c).map f, fun m => (s.sems m).map f⟩

@[simps -fullyApplied] def Effect.map (f : P → Q) (e : Effect X P V C M) : Effect X Q V C M :=
  ⟨e.point, e.shared.map f, e.woke.map f⟩

theorem Shared.queue_map (s : Shared P V C M) (w : Place C M) :
    (s.map f).queue w = (s.queue w).map f := by
  cases w <;> rfl

/-- The names of the processes in the queues and of the owner are all that
counts. -/
theorem Shared.map_congr {g : P → Q} {s : Shared P V C M}
    (howner : ∀ q, s.lock.owner = some q → f q = g q)
    (hqueue : ∀ w, ∀ q ∈ s.queue w, f q = g q) : s.map f = s.map g := by
  obtain ⟨mem, ⟨owner, waiting⟩, conds, sems⟩ := s
  simp only [Shared.map, fifo.Lock.map, fifo.Sem.map, Shared.mk.injEq, fifo.Lock.mk.injEq,
    true_and]
  refine ⟨⟨?_, List.map_congr_left (hqueue .lock)⟩, ?_, ?_⟩
  · rcases owner with _ | q
    · rfl
    · rw [Option.map_some, Option.map_some, howner q rfl]
  · funext c
    exact List.map_congr_left (hqueue (.cond c))
  · funext m
    have hm : (sems m).waiting.map f = (sems m).waiting.map g :=
      List.map_congr_left (hqueue (.sem m))
    rw [hm]

/-- Who owns the lock, under the other names. -/
theorem Shared.owner_map (h : ∀ q, f q = f p → q = p) (x : fifo.Lock P) :
    (x.map f).owner = some (f p) ↔ x.owner = some p := by
  simp only [fifo.Lock.map, Option.map_eq_some_iff]
  constructor
  · rintro ⟨q, hq, he⟩
    rw [hq, h q he]
  · intro hp
    exact ⟨p, hp, rfl⟩

theorem map_update_conds [DecidableEq C] (conds : C → List P) (c : C) (xs : List P) :
    (fun c' => (update conds c xs c').map f) =
      update (fun c' => (conds c').map f) c (xs.map f) := by
  funext c'
  by_cases hc : c' = c
  · subst hc
    simp
  · simp [hc]

theorem map_update_sems [DecidableEq M] (sems : M → fifo.Sem P) (m : M) (x : fifo.Sem P) :
    (fun m' => (update sems m x m').map f) = update (fun m' => (sems m').map f) m (x.map f) := by
  funext m'
  by_cases hm : m' = m
  · subst hm
    simp
  · simp [hm]

variable [DecidableEq P]

/-- A process that runs outside of the lock is neither the owner nor on a queue,
and its name may change. -/
theorem Ok.map_update {L : P → Type} {g : Program P L V C M} {s : State P L V C M} {l : L p}
    (h : Ok g s) (hpc : s.pc p = .ready l) (hin : g.inside p l = false) (f : P → Q) (y : Q) :
    s.shared.map (update f p y) = s.shared.map f := by
  refine Shared.map_congr (fun q hq => ?_) fun w q hq => ?_
  · refine update_of_ne ?_ _ _
    rintro rfl
    obtain ⟨l', hl, hl'⟩ := (h.owner q).mp hq
    cases hpc.symm.trans hl
    exact Bool.false_ne_true (hin.symm.trans hl')
  · refine update_of_ne ?_ _ _
    rintro rfl
    have hplace := (h.mem_queue w q).mp hq
    rw [hpc] at hplace
    cases hplace

variable [DecidableEq Q]

theorem Shared.handed_map (h : ∀ q, f q = f p → q = p) (s : Shared P V C M) :
    (s.map f).handed (f p) = (s.handed p).map f := by
  simp only [Shared.handed, Shared.map, Shared.owner_map h]
  split <;> simp

theorem Shared.take_map (h : ∀ q, f q = f p → q = p) (s : Shared P V C M) (l : X) :
    (s.map f).take (f p) l = (s.take p l).map f := by
  have happly := fifo.Lock.apply_map s.lock (.acquire p) h
  simp only [fifo.LockOp.map] at happly
  simp only [Shared.take, Shared.map, happly, Shared.owner_map h, Effect.map, Option.map_none]

variable [DecidableEq C] [DecidableEq M]

/-- An operation does the same under the other names. -/
theorem Shared.effect_map (h : ∀ q, f q = f p → q = p) (s : Shared P V C M) (o : Op X V C M) :
    (s.map f).effect (f p) o = (s.effect p o).map (Effect.map f) := by
  have hrelease := fifo.Lock.apply_map s.lock (.release p) h
  simp only [fifo.LockOp.map] at hrelease
  cases o with
  | acquire l =>
    simp only [Shared.effect, Shared.take_map h, Option.map_some]
  | release l =>
    simp only [Shared.effect, Shared.handed_map h, Option.map_some, Effect.map]
    simp only [Shared.map, hrelease]
  | wait c l =>
    have howner := Shared.owner_map h s.lock
    simp only [Shared.effect, Shared.handed_map h]
    simp only [Shared.map, howner, hrelease]
    split
    · simp only [Option.map_some, Effect.map, Shared.map, map_update_conds, List.map_append,
        List.map_cons, List.map_nil]
    · rfl
  | signal c l =>
    have howner := Shared.owner_map h s.lock
    simp only [Shared.effect]
    simp only [Shared.map, howner]
    split
    · simp only [Option.map_some, Effect.map, Shared.map, map_update_conds, List.map_tail,
        List.head?_map]
    · rfl
  | semWait m l =>
    have happly := fifo.Sem.apply_map (f := f) (s.sems m) (.wait p)
    simp only [fifo.SemOp.map] at happly
    simp only [Shared.effect, Option.map_some, Effect.map, Shared.map, map_update_sems, happly,
      fifo.Sem.map_count, Option.map_none]
  | semSignal m l =>
    have happly := fifo.Sem.apply_map (f := f) (s.sems m) .signal
    have hgrants := fifo.Sem.grants_map (f := f) (s.sems m) .signal
    simp only [fifo.SemOp.map] at happly hgrants
    simp only [Shared.effect, Option.map_some, Effect.map, Shared.map, map_update_sems, happly,
      hgrants, List.head?_map]
  | access g => rfl
  | done => rfl

end monitor
