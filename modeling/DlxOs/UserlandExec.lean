-- Runs of the programs that are computed. What can be computed of a world is
-- all but its pages, and the machine has enough of them for the runs here.
import DlxOs.Exec
import DlxOs.UserlandRuns

namespace dlxos

open Function runs monitor

variable {P V C M : Type} {L : P → Type} {B : Binding C M} {n : Nat} {b : Boot}

/-- A world without its pages. -/
structure Sketch (P : Type) (L : P → Type) (V : Type) where
  system : System
  pid : P → Option Pid
  loc : ∀ p, L p
  mem : V

def World.sketch (w : World P L V) : Sketch P L V := ⟨w.machine.system, w.pid, w.loc, w.mem⟩

/-- The steps of a run, without the pages. -/
def sketchMoves (tr : List (Move (World P L V) (Option Label))) :
    List (Move (Sketch P L V) (Option (Event × Return))) :=
  tr.map fun mv => ⟨mv.pre.sketch, mv.label.map fun l => (l.1.event, l.2), mv.post.sketch⟩

/-- Who goes on next. -/
inductive Turn (P : Type) where
  | timer
  | resume
  /-- A process without a program makes a new one. -/
  | fork
  | start (p : P)
  | go (p : P)

namespace Sketch

/-- The kernel is entered, and the process that runs comes to another place. -/
def enter (v : Sketch P L V) (n : Nat) (e : Event) (pid : P → Option Pid) (loc : ∀ p, L p) :
    Option (Option (Event × Return) × Sketch P L V) :=
  if v.system.Ready e ∧ v.system.fits n e = true then
    (v.system.step 0 e).map fun x => (some (e, x.2), ⟨x.1, pid, loc, v.mem⟩)
  else none

variable [DecidableEq P] [Fintype P] [∀ p, DecidableEq (L p)]

def turn (op : ∀ p, L p → Op (L p) V C M) (start : ∀ p, L p) (B : Binding C M) (n : Nat)
    (v : Sketch P L V) : Turn P → Option (Option (Event × Return) × Sketch P L V)
  | .timer => v.enter n .timer v.pid v.loc
  | .resume => v.enter n .resume v.pid v.loc
  | .fork =>
    if ∀ p, v.pid p = none ∨ v.pid p ≠ v.system.current then
      v.enter n (.fork true true) v.pid v.loc
    else none
  | .start p => match v.system.current with
    | none => none
    | some x =>
      if v.system.stopped x = none ∧ (∀ p, v.pid p ≠ some x) ∧ v.pid p = none ∧
          v.loc p = start p then
        some (none, { v with pid := update v.pid p (some x) })
      else none
  | .go p => match v.system.current with
    | none => none
    | some x =>
      if v.system.stopped x = none ∧ v.pid p = some x then
        match op p (v.loc p) with
        | .done => v.enter n .exit (update v.pid p none) v.loc
        | .access f => some (none, { v with mem := (f v.mem).1, loc := update v.loc p (f v.mem).2 })
        | o => match B.call o with
          | none => none
          | some (c, l) => v.enter n (.call c) v.pid (update v.loc p l)
      else none

/-- Runs through the turns, and gives the steps and the last sketch. -/
def exec (op : ∀ p, L p → Op (L p) V C M) (start : ∀ p, L p) (B : Binding C M) (n : Nat) :
    List (Turn P) → Sketch P L V →
      Option (List (Move (Sketch P L V) (Option (Event × Return))) × Sketch P L V)
  | [], v => some ([], v)
  | t :: ts, v => (turn op start B n v t).bind fun x =>
    (exec op start B n ts x.2).map fun y => (⟨v, x.1, x.2⟩ :: y.1, y.2)

end Sketch

/-- The machine enters the kernel as the system does. -/
theorem enter_machine {w : World P L V} (h : Roomy b n w.machine) {e : Event}
    {pid : P → Option Pid} {loc : ∀ p, L p} {x : Option (Event × Return) × Sketch P L V}
    (hx : w.sketch.enter n e pid loc = some x) :
    ∃ r m, w.machine.Step (⟨e, 0⟩, r) m ∧ x = (some (e, r), World.sketch ⟨m, pid, loc, w.mem⟩) ∧
      Roomy b n m := by
  unfold Sketch.enter at hx
  split at hx
  · rename_i hok
    obtain ⟨⟨d, r⟩, hs, rfl⟩ := Option.map_eq_some_iff.mp hx
    obtain ⟨m, hm, rfl, hroomy⟩ := h.enter hok.1 hok.2 hs
    exact ⟨r, m, hm, rfl, hroomy⟩
  · cases hx

variable [DecidableEq P] [Fintype P] [∀ p, DecidableEq (L p)] {g : Program P L V C M}

/-- A turn that is computed is a step of the world. -/
theorem turn_world {w : World P L V} (h : Roomy b n w.machine) {t : Turn P}
    {x : Option (Event × Return) × Sketch P L V}
    (hx : w.sketch.turn g.op g.start B n t = some x) :
    ∃ l w', World.Step g B w l w' ∧ x = (l.map fun l => (l.1.event, l.2), w'.sketch) ∧
      Roomy b n w'.machine := by
  cases t with
  | timer =>
    obtain ⟨r, m, hm, hs, hr⟩ := enter_machine h hx
    exact ⟨_, _, .kernel hm (.inl rfl), hs, hr⟩
  | resume =>
    obtain ⟨r, m, hm, hs, hr⟩ := enter_machine h hx
    exact ⟨_, _, .kernel hm (.inr rfl), hs, hr⟩
  | fork =>
    simp only [Sketch.turn] at hx
    split at hx
    · rename_i hstr
      obtain ⟨r, m, hm, hs, hr⟩ := enter_machine h hx
      refine ⟨_, _, .stranger hm (fun y hy p hp => ?_) (by simp), hs, hr⟩
      have hy' : w.sketch.system.current = some y := hy
      have hp' : w.sketch.pid p = some y := hp
      rcases hstr p with hnone | hne
      · cases hp'.symm.trans hnone
      · exact hne (hp'.trans hy'.symm)
    · cases hx
  | start p =>
    simp only [Sketch.turn] at hx
    split at hx
    · cases hx
    · rename_i y hy
      split at hx
      · rename_i hok
        obtain ⟨hf, hstr, hp, hl⟩ := hok
        cases hx
        exact ⟨_, _, .start hy hf hstr hp hl, rfl, h⟩
      · cases hx
  | go p =>
    simp only [Sketch.turn] at hx
    split at hx
    · cases hx
    · rename_i y hy
      split at hx
      · rename_i hok
        obtain ⟨hf, hp⟩ := hok
        split at hx
        · rename_i hop
          obtain ⟨r, m, hm, hs, hr⟩ := enter_machine h hx
          exact ⟨_, _, .exit hm hy hp hop rfl, hs, hr⟩
        · rename_i f hop
          cases hx
          exact ⟨_, _, .access hy hf hp hop, rfl, h⟩
        · split at hx
          · cases hx
          · rename_i c l hop
            obtain ⟨r, m, hm, hs, hr⟩ := enter_machine h hx
            exact ⟨_, _, .call hm hy hp hop rfl, hs, hr⟩
      · cases hx

/-- A run that is computed is a run of the world. -/
theorem exec_world (ts : List (Turn P)) : ∀ {w : World P L V}, Roomy b n w.machine →
    ∀ {ms : List (Move (Sketch P L V) (Option (Event × Return)))} {u : Sketch P L V},
    w.sketch.exec g.op g.start B n ts = some (ms, u) →
    ∃ tr w', Run (World.Step g B) w tr w' ∧ sketchMoves tr = ms ∧ w'.sketch = u := by
  induction ts with
  | nil =>
    intro w _ ms u hu
    obtain ⟨rfl, rfl⟩ := Prod.mk.inj (Option.some.inj hu)
    exact ⟨[], w, .nil, rfl, rfl⟩
  | cons t ts ih =>
    intro w h ms u hu
    obtain ⟨x, hx, hrest⟩ := Option.bind_eq_some_iff.mp hu
    obtain ⟨l, w1, hs, rfl, h1⟩ := turn_world h hx
    obtain ⟨⟨ms1, u1⟩, hex, he⟩ := Option.map_eq_some_iff.mp hrest
    obtain ⟨rfl, rfl⟩ := Prod.mk.inj he
    obtain ⟨tr, w', hr, rfl, hw'⟩ := ih h1 hex
    exact ⟨_, w', hr.cons hs, rfl, hw'⟩

/-- The objects are as the kernel makes them, and no process is in a call. -/
def Binding.Fresh (B : Binding C M) (count : M → Int) (a : System) : Prop :=
  (a.locks B.lock = ⟨-1, true⟩ ∧ a.queue (.lock B.lock) = []) ∧
  (∀ c, a.conds (B.cond c) = ⟨B.lock, true⟩ ∧ a.queue (.cond (B.cond c)) = []) ∧
  (∀ m, a.sems (B.sem m) = ⟨count m, true⟩ ∧ a.queue (.sem (B.sem m)) = []) ∧
  ∀ x, a.stopped x = none

instance [Fintype C] [Fintype M] (count : M → Int) (a : System) : Decidable (B.Fresh count a) := by
  unfold Binding.Fresh
  infer_instance

omit [DecidableEq P] [Fintype P] [∀ p, DecidableEq (L p)] in
theorem Binding.Fresh.starts {m : Machine} (hm : Reachable m) (h : B.Fresh g.count m.system) :
    World.Starts g B ⟨m, fun _ => none, g.start, g.mem⟩ := by
  obtain ⟨⟨hlock, hlq⟩, hconds, hsems, hstop⟩ := h
  refine ⟨hm, ⟨?_, fun c => (hconds c).1, fun k => ?_⟩, ?_, fun k => ?_, fun q => ?_, ?_, rfl, rfl,
    rfl⟩
  · exact congrArg Lock.inuse hlock
  · exact congrArg Sem.inuse (hsems k).1
  · exact congrArg Lock.pid hlock
  · exact congrArg Sem.count (hsems k).1
  · cases q with
    | lock => exact hlq
    | cond c => exact (hconds c).2
    | sem k => exact (hsems k).2
  · intro x c stop hx
    cases (hstop x).symm.trans hx

/-- A run of the programs from the objects that the first events make. -/
theorem exists_starts_run [Fintype C] [Fintype M] (es : List Event) (ts : List (Turn P))
    (Q : List (Move (Sketch P L V) (Option (Event × Return))) → Sketch P L V → Bool)
    (h : (System.start.exec 30 es).any (fun x =>
      (∀ mv ∈ x.1, mv.label.1 ≠ .call .shareCreatePage) ∧ B.Fresh g.count x.2 ∧
        ((Sketch.mk x.2 (fun _ => none) g.start g.mem).exec g.op g.start B 30 ts).any
          (fun u => Q u.1 u.2) = true) = true) :
    ∃ w tr w', World.Starts g B w ∧ Run (World.Step g B) w tr w' ∧
      Q (sketchMoves tr) w'.sketch = true := by
  obtain ⟨m, hm, ⟨hfresh, hany⟩, hroomy⟩ := exists_roomy es
    (fun a => B.Fresh g.count a ∧
      ((Sketch.mk a (fun _ => none) g.start g.mem).exec g.op g.start B 30 ts).any
        (fun u => Q u.1 u.2) = true) h
  obtain ⟨⟨ms, u⟩, hex, hq⟩ := (Option.any_eq_true _ _).mp hany
  obtain ⟨tr, w', hr, rfl, rfl⟩ :=
    exec_world (w := ⟨m, fun _ => none, g.start, g.mem⟩) ts hroomy hex
  exact ⟨_, tr, w', hfresh.starts hm, hr, hq⟩

end dlxos
