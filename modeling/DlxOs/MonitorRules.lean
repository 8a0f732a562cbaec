-- The rules for programs with a monitor. What the processes do to the memory
-- is seen by a rule that forgets who sleeps, an outline says what a process
-- knows at each point, and a state in which no process can run is one in
-- which all have ended or sleep.
import DlxOs.Monitor
import Mathlib.Algebra.BigOperators.Ring.Finset
import Mathlib.Algebra.Order.BigOperators.Group.Finset
import Mathlib.Data.Fintype.Basic

namespace monitor

open Function

variable {P V C M X : Type} {L : P → Type} [DecidableEq P] [DecidableEq C] [DecidableEq M]
  {g : Program P L V C M} {s t : State P L V C M} {p q : P}

/-! ## Data -/

/-- What an operation does in a state where nobody ever sleeps. -/
def Op.next : Op X V C M → V → Option (X × V)
  | .acquire l, v | .release l, v | .wait _ l, v | .signal _ l, v | .semWait _ l, v
  | .semSignal _ l, v => some (l, v)
  | .access f, v => some ((f v).2, (f v).1)
  | .done, _ => none

/-- An effect shows what its operation does. -/
theorem effect_next {o : Op X V C M} {sh : Shared P V C M} {e : Effect X P V C M}
    (h : sh.effect p o = some e) : o.next sh.mem = some (e.point.loc, e.shared.mem) := by
  cases o with
  | acquire l =>
    cases h
    simp only [Op.next, Shared.take]
    split <;> rfl
  | semWait m l =>
    cases h
    simp only [Op.next]
    split <;> rfl
  | wait c l | signal c l =>
    simp only [Shared.effect] at h
    split at h <;> cases h <;> rfl
  | done => cases h
  | _ => cases h; rfl

omit [DecidableEq C] [DecidableEq M] in
@[simp] theorem loc_take (sh : Shared P V C M) (p : P) (l : X) : (sh.take p l).point.loc = l := by
  simp only [Shared.take]
  split <;> rfl

omit [DecidableEq P] [DecidableEq C] [DecidableEq M] in
theorem locs_ready {l : L p} (h : s.pc p = .ready l) : s.locs p = l := by
  rw [State.locs, h, Point.loc_ready]

omit [DecidableEq P] [DecidableEq C] [DecidableEq M] in
theorem locs_asleep {w : Place C M} {l : L p} (h : s.pc p = .asleep w l) : s.locs p = l := by
  rw [State.locs, h, Point.loc_asleep]

omit [DecidableEq C] [DecidableEq M] in
theorem locs_after (s : State P L V C M) (p : P) (e : Effect (L p) P V C M) :
    (s.after p e).locs = update s.locs p e.point.loc := by
  funext q
  by_cases hq : q = p
  · subst hq
    simp [State.locs]
  · rw [update_of_ne hq, State.locs, s.after_of_ne e hq]
    split
    · exact Point.loc_wake _
    · rfl

/-- A step is a step of the data, or a process that was signalled asks for the
lock. -/
theorem step_data (hs : g.Step s p t) :
    (t.locs = s.locs ∧ t.shared.mem = s.shared.mem) ∨
      ∃ l v, s.pc p = .ready (s.locs p) ∧ (g.op p (s.locs p)).next s.shared.mem = some (l, v) ∧
        t.locs = update s.locs p l ∧ t.shared.mem = v := by
  rcases step_cases hs with ⟨e, hpc, he, rfl⟩ | ⟨hpc, rfl⟩
  · exact .inr ⟨_, _, hpc, effect_next he, locs_after s p e, rfl⟩
  · exact .inl ⟨by rw [locs_after, loc_take, update_eq_self], rfl⟩

/-- A property of the data that each operation keeps holds of every reachable
state. -/
theorem data_rule {J : (∀ p, L p) → V → Prop} (h0 : J g.start g.mem)
    (hstep : ∀ locs v p l v', J locs v → (g.op p (locs p)).next v = some (l, v') →
      J (update locs p l) v') (h : g.Reachable s) : J s.locs s.shared.mem := by
  refine h.invariant (I := fun s => J s.locs s.shared.mem) h0 fun s p t hJ hs => ?_
  rcases step_data hs with ⟨hl, hm⟩ | ⟨l, v, _, hn, hl, hm⟩
  · rw [hl, hm]
    exact hJ
  · rw [hl, hm]
    exact hstep _ _ _ _ _ hJ hn

/-- What each process keeps for itself. -/
theorem loc_rule {S : ∀ p, L p → Prop} (h0 : ∀ p, S p (g.start p))
    (hstep : ∀ p l v l' v', S p l → (g.op p l).next v = some (l', v') → S p l')
    (h : g.Reachable s) (p : P) : S p (s.locs p) := by
  refine data_rule (g := g) (J := fun locs _ => ∀ p, S p (locs p)) h0 ?_ h p
  intro locs v p l v' hS hn q
  by_cases hq : q = p
  · subst hq
    rw [update_self]
    exact hstep _ _ _ _ _ (hS q) hn
  · rw [update_of_ne hq]
    exact hS q

/-! ## One process alone -/

/-- The operations that one process runs, one after another, where it does not
sleep and wakes nobody. -/
def Program.alone (g : Program P L V C M) (p : P) :
    Nat → Point (L p) C M × Shared P V C M → Option (Point (L p) C M × Shared P V C M)
  | 0, x => some x
  | n + 1, (.ready l, sh) => (sh.effect p (g.op p l)).bind fun e =>
    if e.woke = none then alone g p n (e.point, e.shared) else none
  | _ + 1, _ => none

theorem alone_update {n : Nat} {pc : ∀ p, Point (L p) C M} {x y : Point (L p) C M}
    {sh sh' : Shared P V C M} (h : g.Reachable ⟨update pc p x, sh⟩)
    (hn : g.alone p n (x, sh) = some (y, sh')) : g.Reachable ⟨update pc p y, sh'⟩ := by
  induction n generalizing x sh with
  | zero =>
    cases hn
    exact h
  | succ n ih =>
    rcases x with l | ⟨w, l⟩ | l
    · obtain ⟨e, he, hn⟩ := Option.bind_eq_some_iff.mp hn
      split at hn
      · rename_i hw
        refine ih ?_ hn
        have hs : g.Step ⟨update pc p (.ready l), sh⟩ p
            ((State.mk (update pc p (.ready l)) sh).after p e) := by
          simp [Program.Step, Program.step, Program.effect, he]
        have hafter : (State.mk (update pc p (.ready l)) sh).after p e =
            ⟨update pc p e.point, e.shared⟩ := by
          simp only [State.after, State.mk.injEq, and_true]
          rw [← update_idem (β := fun q => Point (L q) C M) (a := p) (.ready l) e.point pc]
          congr 1
          funext q
          simp [wakeUp, hw]
        exact hafter ▸ h.step hs
      · cases hn
    · cases hn
    · cases hn

/-- What one process does alone is a run of all. -/
theorem Program.Reachable.alone {n : Nat} {x y : Point (L p) C M} {sh : Shared P V C M}
    (h : g.Reachable s) (hpc : s.pc p = x) (hn : g.alone p n (x, s.shared) = some (y, sh)) :
    ∃ t, g.Reachable t ∧ t.pc p = y ∧ t.shared = sh ∧ ∀ q, q ≠ p → t.pc q = s.pc q := by
  refine ⟨⟨update s.pc p y, sh⟩, alone_update (x := x) ?_ hn, update_self .., rfl,
    fun q hq => update_of_ne hq ..⟩
  rwa [← hpc, update_eq_self]

/-! ## Outlines -/

/-- Where an operation leaves its process, and the memory. -/
inductive Op.Goes : Op X V C M → V → Point X C M → V → Prop
  | acquire {l : X} {v : V} : Goes (.acquire l) v (.ready l) v
  | acquireSleep {l : X} {v : V} : Goes (.acquire l) v (.asleep .lock l) v
  | release {l : X} {v : V} : Goes (.release l) v (.ready l) v
  | wait {c : C} {l : X} {v : V} : Goes (.wait c l) v (.asleep (.cond c) l) v
  | signal {c : C} {l : X} {v : V} : Goes (.signal c l) v (.ready l) v
  | semWait {m : M} {l : X} {v : V} : Goes (.semWait m l) v (.ready l) v
  | semSleep {m : M} {l : X} {v : V} : Goes (.semWait m l) v (.asleep (.sem m) l) v
  | semSignal {m : M} {l : X} {v : V} : Goes (.semSignal m l) v (.ready l) v
  | access {f : V → V × X} {v : V} : Goes (.access f) v (.ready (f v).2) (f v).1

/-- The operation may wake a process that sleeps at the place. -/
def Op.Wakes : Op X V C M → Place C M → Prop
  | .release _, .lock | .wait _ _, .lock => True
  | .signal c _, .cond c' => c = c'
  | .semSignal m _, .sem m' => m = m'
  | _, _ => False

omit [DecidableEq P] [DecidableEq C] [DecidableEq M] in
/-- An operation that wakes processes leaves the memory alone. -/
theorem Op.Wakes.next {o : Op X V C M} {w : Place C M} (hw : o.Wakes w) {v v' : V} {l : X}
    (hn : o.next v = some (l, v')) : v' = v := by
  cases o with
  | access f => cases hw
  | done => cases hn
  | _ =>
    cases hn
    rfl

omit [DecidableEq P] [DecidableEq C] [DecidableEq M] in
theorem Op.Wakes.signal {o : Op X V C M} {c : C} (hw : o.Wakes (.cond c)) :
    ∃ l, o = .signal c l := by
  cases o with
  | signal c' l =>
    obtain rfl : c' = c := hw
    exact ⟨l, rfl⟩
  | _ => cases hw

theorem effect_goes {o : Op X V C M} {sh : Shared P V C M} {e : Effect X P V C M}
    (h : sh.effect p o = some e) : o.Goes sh.mem e.point e.shared.mem := by
  cases o with
  | acquire l =>
    cases h
    simp only [Shared.take]
    split
    · exact .acquire
    · exact .acquireSleep
  | semWait m l =>
    cases h
    simp only
    split
    · exact .semSleep
    · exact .semWait
  | wait c l =>
    simp only [Shared.effect] at h
    split at h <;> cases h
    exact .wait
  | signal c l =>
    simp only [Shared.effect] at h
    split at h <;> cases h <;> exact .signal
  | release l => cases h; exact .release
  | semSignal m l => cases h; exact .semSignal
  | access f => cases h; exact .access
  | done => cases h

/-- A process that an operation wakes slept at a place from where it wakes
processes. -/
theorem effect_wakes {o : Op X V C M} {sh : Shared P V C M} {e : Effect X P V C M}
    (h : sh.effect p o = some e) {q : P} (hw : e.woke = some q) :
    ∃ w, o.Wakes w ∧ q ∈ sh.queue w := by
  have hhanded : sh.handed p = some q → q ∈ sh.queue .lock := by
    intro he
    unfold Shared.handed at he
    split at he
    · exact List.mem_of_mem_head? he
    · cases he
  cases o with
  | release l =>
    cases h
    exact ⟨.lock, trivial, hhanded hw⟩
  | wait c l =>
    simp only [Shared.effect] at h
    split at h <;> cases h
    exact ⟨.lock, trivial, hhanded hw⟩
  | signal c l =>
    simp only [Shared.effect] at h
    split at h <;> cases h
    · exact ⟨.cond c, rfl, List.mem_of_mem_head? hw⟩
    · cases hw
  | semSignal m l =>
    cases h
    refine ⟨.sem m, rfl, ?_⟩
    simp only [fifo.Sem.grants] at hw
    split at hw
    · exact List.mem_of_mem_take (List.mem_of_mem_head? hw)
    · cases hw
  | acquire l | semWait m l | access f =>
    cases h
    cases hw
  | done => cases h

omit [DecidableEq P] [DecidableEq C] [DecidableEq M] in
/-- Outside its section a process leaves the memory alone. -/
theorem next_outside {l l' : L p} {v v' : V} (h : (g.op p l).next v = some (l', v'))
    (hin : g.inside p l = false) : v' = v := by
  have hobeys := g.obeys p l
  cases hop : g.op p l <;> rw [hop] at h hobeys
  case access f => cases hin.symm.trans hobeys.1
  case done => cases h
  all_goals
    cases h
    rfl

omit [DecidableEq C] [DecidableEq M] in
/-- An operation that goes on to a point shows its place. -/
theorem Op.Goes.next {o : Op X V C M} {v v' : V} {x : Point X C M} (h : o.Goes v x v') :
    o.next v = some (x.loc, v') := by
  cases h <;> rfl

/-- A signal wakes the first process of its queue. -/
theorem effect_signal {c : C} {l : X} {sh : Shared P V C M} {e : Effect X P V C M}
    (h : sh.effect p (.signal c l) = some e) (ho : sh.lock.owner = some p)
    (hne : sh.conds c ≠ []) : ∃ r ∈ sh.conds c, e.woke = some r := by
  simp only [Shared.effect, if_pos ho, Option.some.injEq] at h
  subst h
  obtain ⟨r, rs, hr⟩ := List.exists_cons_of_ne_nil hne
  exact ⟨r, by simp [hr], by simp [hr]⟩

/-- A process that sleeps on a condition or a semaphore waits there. -/
theorem asleep_from (h : g.Reachable s) {w : Place C M} (hw : w ≠ .lock) :
    ∀ p l, s.pc p = .asleep w l → ∃ l0 v v', (g.op p l0).Goes v (.asleep w l) v' := by
  refine h.invariant (I := fun s => ∀ p l, s.pc p = .asleep w l →
    ∃ l0 v v', (g.op p l0).Goes v (.asleep w l) v') (fun p l hpc => by cases hpc) ?_
  intro s p t hI hs q l hq
  rcases step_cases hs with ⟨e, _, he, rfl⟩ | ⟨_, rfl⟩
  · by_cases hqp : q = p
    · subst hqp
      rw [State.after_self] at hq
      exact ⟨_, _, _, hq ▸ effect_goes he⟩
    · rw [s.after_of_ne e hqp] at hq
      split at hq
      · have hplace := congrArg Point.place hq
        simp at hplace
      · exact hI q l hq
  · by_cases hqp : q = p
    · subst hqp
      rw [State.after_self] at hq
      simp only [Shared.take] at hq
      split at hq
      · cases hq
      · cases hq
        exact absurd rfl hw
    · rw [s.after_of_ne _ hqp, if_neg (by simp [Shared.take])] at hq
      exact hI q l hq

/-- A step of another process leaves a process that does not sleep where it is. -/
theorem pc_of_ne (h : g.Reachable s) (hs : g.Step s p t) {q : P} (hq : q ≠ p)
    (hplace : (s.pc q).place = none) : t.pc q = s.pc q := by
  rcases step_cases hs with ⟨e, _, he, rfl⟩ | ⟨_, rfl⟩
  · rw [s.after_of_ne e hq, if_neg]
    intro hw
    obtain ⟨w, _, hmem⟩ := effect_wakes he hw
    exact h.ok.not_mem hplace w hmem
  · rw [s.after_of_ne _ hq, if_neg (by simp [Shared.take])]

/-- Where nobody wakes a place, a process that sleeps there sleeps on. -/
theorem sleeps_on (h : g.Reachable s) (hs : g.Step s p t) {q : P} {l : L q} {w : Place C M}
    (hw : ∀ p l, ¬ (g.op p l).Wakes w) (hq : s.pc q = .asleep w l) : t.pc q = .asleep w l := by
  have hne : q ≠ p := by
    rintro rfl
    rcases step_cases hs with ⟨_, hpc, _⟩ | ⟨hpc, _⟩ <;> cases hq.symm.trans hpc
  rcases step_cases hs with ⟨e, _, he, rfl⟩ | ⟨_, rfl⟩
  · rw [s.after_of_ne e hne, if_neg, hq]
    intro hwoke
    obtain ⟨w', hwakes, hmem⟩ := effect_wakes he hwoke
    have hplace := (h.ok.mem_queue w' q).mp hmem
    rw [hq, Point.place_asleep, Option.some.injEq] at hplace
    exact hw _ _ (hplace ▸ hwakes)
  · rw [s.after_of_ne _ hne, if_neg (by simp [Shared.take]), hq]

/-- An assertion for each process and point, about the places of all processes
and the memory. What a process knows is true when it comes to a point, and no
other process makes it false. -/
structure Outline (g : Program P L V C M) (J : (∀ p, L p) → V → Prop)
    (A : ∀ p, Point (L p) C M → (∀ p, L p) → V → Prop) : Prop where
  start : ∀ p, A p (.ready (g.start p)) g.start g.mem
  own : ∀ {p locs v x v'}, J locs v → A p (.ready (locs p)) locs v →
    (g.op p (locs p)).Goes v x v' → A p x (update locs p x.loc) v'
  again : ∀ {p locs v}, J locs v → A p (.woken (locs p)) locs v →
    A p (.ready (locs p)) locs v ∧ A p (.asleep .lock (locs p)) locs v
  woke : ∀ {p q locs v l v' w}, q ≠ p → J locs v → A p (.ready (locs p)) locs v →
    A q (.asleep w (locs q)) locs v → (g.op p (locs p)).Wakes w →
    (g.op p (locs p)).next v = some (l, v') →
    A q (Point.asleep w (locs q)).wake (update locs p l) v'
  /-- The other process is not in its section at the same time, and where it
  sleeps through a signal, another one sleeps there as well. -/
  frame : ∀ {p q x locs v l v'}, q ≠ p → J locs v → A p (.ready (locs p)) locs v →
    A q x locs v → x.loc = locs q → (g.op p (locs p)).next v = some (l, v') →
    (g.inside p (locs p) = true → g.inside q (locs q) = true → x ≠ .ready (locs q)) →
    (∀ c l', x = .asleep (.cond c) (locs q) → g.op p (locs p) = .signal c l' →
      ∃ r, r ≠ q ∧ A r (.asleep (.cond c) (locs r)) locs v) →
    A q x (update locs p l) v'

omit [DecidableEq C] [DecidableEq M] in
theorem point_of_place {x : Point X C M} {w : Place C M} (h : x.place = some w) :
    x = .asleep w x.loc := by
  rcases x with l | ⟨w', l⟩ | l
  · cases h
  · cases h
    rfl
  · cases h

/-- An outline is true in every reachable state. -/
theorem Outline.holds {J : (∀ p, L p) → V → Prop}
    {A : ∀ p, Point (L p) C M → (∀ p, L p) → V → Prop} (o : Outline g J A)
    (hJ : ∀ s, g.Reachable s → J s.locs s.shared.mem) (h : g.Reachable s) (p : P) :
    A p (s.pc p) s.locs s.shared.mem := by
  obtain ⟨tr, hr⟩ := h
  refine (hr.invariant (I := fun s => g.Reachable s ∧ ∀ p, A p (s.pc p) s.locs s.shared.mem) ?_
    ⟨.init, o.start⟩).2 p
  rintro s p t ⟨hreach, hA⟩ hs
  refine ⟨hreach.step hs, fun q => ?_⟩
  have hok := hreach.ok
  have hJ := hJ s hreach
  rcases step_cases hs with ⟨e, hpc, he, rfl⟩ | ⟨hpc, rfl⟩
  · have hown := hpc ▸ hA p
    have hnext := effect_next he
    rw [locs_after, State.after_shared]
    by_cases hq : q = p
    · subst hq
      rw [State.after_self]
      exact o.own hJ hown (effect_goes he)
    · rw [s.after_of_ne e hq]
      split
      · rename_i hw
        obtain ⟨w, hwakes, hmem⟩ := effect_wakes he hw
        have hpt := point_of_place ((hok.mem_queue w q).mp hmem)
        have hAq := hA q
        rw [hpt] at hAq ⊢
        exact o.woke hq hJ hown hAq hwakes hnext
      · rename_i hw
        refine o.frame hq hJ hown (hA q) rfl hnext ?_ ?_
        · intro hp hin hready
          have hoq := (hok.owner q).mpr ⟨_, hready, hin⟩
          have hop := (hok.owner p).mpr ⟨_, hpc, hp⟩
          exact hq (Option.some.inj (hoq.symm.trans hop))
        · intro c l' hx hop
          rw [hop] at he
          have hobeys := g.obeys p (s.locs p)
          rw [hop] at hobeys
          have hmem : q ∈ s.shared.conds c := (hok.mem_queue (.cond c) q).mpr (by rw [hx]; rfl)
          obtain ⟨r, hr, hwr⟩ := effect_signal he ((hok.owner p).mpr ⟨_, hpc, hobeys.1⟩)
            (List.ne_nil_of_mem hmem)
          refine ⟨r, fun hrq => hw (hrq ▸ hwr), ?_⟩
          have hpt := point_of_place ((hok.mem_queue (.cond c) r).mp hr)
          exact hpt ▸ hA r
  · have htake := o.again hJ (hpc ▸ hA p)
    rw [locs_after, loc_take, update_eq_self]
    by_cases hq : q = p
    · subst hq
      rw [State.after_self]
      simp only [Shared.take]
      split
      · exact htake.1
      · exact htake.2
    · rw [s.after_of_ne _ hq, if_neg (by simp [Shared.take])]
      exact hA q

/-! ## Stuck states -/

/-- Where no process can run, the lock is free, and each process has ended, or
sleeps on a condition or a semaphore. -/
theorem Ok.stuck (h : Ok g s) (hs : g.Stuck s) : s.shared.lock.owner = none ∧
    ∀ p, g.Finished s p ∨ ∃ w l, s.pc p = .asleep w l ∧ w ≠ .lock := by
  have hready : ∀ p l, s.pc p = .ready l → g.op p l = .done := by
    intro p l hpc
    have hstep : (s.shared.effect p (g.op p l)).map (s.after p) = none := by
      simpa [Program.step, Program.effect, hpc] using hs p
    have hobeys := g.obeys p l
    cases hop : g.op p l with
    | done => rfl
    | wait c l' =>
      rw [hop] at hstep hobeys
      have hown := (h.owner p).mpr ⟨l, hpc, hobeys.1⟩
      simp [Shared.effect, hown] at hstep
    | signal c l' =>
      rw [hop] at hstep
      simp only [Shared.effect] at hstep
      split at hstep <;> cases hstep
    | _ =>
      rw [hop] at hstep
      cases hstep
  have hfree : s.shared.lock.owner = none := by
    by_contra hne
    obtain ⟨p, hp⟩ := Option.ne_none_iff_exists'.mp hne
    obtain ⟨l, hpc, hin⟩ := (h.owner p).mp hp
    have hobeys := g.obeys p l
    rw [hready p l hpc] at hobeys
    cases hin.symm.trans hobeys
  refine ⟨hfree, fun p => ?_⟩
  rcases hpc : s.pc p with l | ⟨w, l⟩ | l
  · exact .inl ⟨l, hpc, hready p l hpc⟩
  · refine .inr ⟨w, l, rfl, ?_⟩
    rintro rfl
    have hmem := (h.mem_queue .lock p).mpr (by rw [hpc]; rfl)
    rw [Shared.queue, h.lock.free hfree] at hmem
    cases hmem
  · have hstep := hs p
    simp [Program.step, Program.effect, hpc] at hstep

/-! ## Semaphores -/

/-- What an operation asks of a semaphore, less what it gives to it. -/
def Op.units (m : M) : Op X V C M → Int
  | .semWait m' _ => if m' = m then 1 else 0
  | .semSignal m' _ => if m' = m then -1 else 0
  | _ => 0

theorem effect_sems {o : Op X V C M} {sh : Shared P V C M} {e : Effect X P V C M}
    (h : sh.effect p o = some e) (m : M) :
    (e.shared.sems m).count - ((e.shared.sems m).waiting.length : Int) =
      (sh.sems m).count - (sh.sems m).waiting.length - o.units m := by
  cases o with
  | semWait m' l =>
    cases h
    by_cases hm : m' = m
    · subst hm
      simp only [update_self, Op.units, if_true, fifo.Sem.apply]
      split
      · simp only [List.length_append, List.length_singleton]
        omega
      · simp only
        omega
    · simp [Op.units, hm, Ne.symm hm]
  | semSignal m' l =>
    cases h
    by_cases hm : m' = m
    · subst hm
      simp only [update_self, Op.units, if_true, fifo.Sem.apply]
      rcases (sh.sems m').waiting with _ | ⟨q, qs⟩
      · simp only [List.length_nil]
        omega
      · simp only
        split
        · simp only [List.length_cons]
          omega
        · simp only [List.length_cons]
          omega
    · simp [Op.units, hm, Ne.symm hm]
  | wait c l | signal c l =>
    simp only [Shared.effect] at h
    split at h <;> cases h <;> simp [Op.units]
  | done => cases h
  | _ => cases h; simp [Op.units, Shared.take]

theorem effect_count {o : Op X V C M} {sh : Shared P V C M} {e : Effect X P V C M}
    (h : sh.effect p o = some e) {m : M} (h0 : 0 ≤ (sh.sems m).count) :
    0 ≤ (e.shared.sems m).count := by
  cases o with
  | semWait m' l =>
    cases h
    by_cases hm : m = m'
    · subst hm
      simp only [update_self, fifo.Sem.apply]
      split
      · exact h0
      · simp only
        omega
    · simpa [hm] using h0
  | semSignal m' l =>
    cases h
    by_cases hm : m = m'
    · subst hm
      simp only [update_self, fifo.Sem.apply]
      split
      · simp only
        omega
      · split
        · exact h0
        · simp only
          omega
    · simpa [hm] using h0
  | wait c l | signal c l =>
    simp only [Shared.effect] at h
    split at h <;> cases h <;> exact h0
  | done => cases h
  | _ => cases h; exact h0

/-- The count of a semaphore does not become negative. -/
theorem count_nonneg {m : M} (h0 : 0 ≤ g.count m) (h : g.Reachable s) :
    0 ≤ (s.shared.sems m).count := by
  refine h.invariant (I := fun s => 0 ≤ (s.shared.sems m).count) h0 fun s p t hI hs => ?_
  rcases step_cases hs with ⟨e, _, he, rfl⟩ | ⟨_, rfl⟩
  · exact effect_count he hI
  · exact hI

theorem effect_sem {o : Op X V C M} {sh : Shared P V C M} {e : Effect X P V C M}
    (h : sh.effect p o = some e) (m : M) :
    e.shared.sems m = sh.sems m ∨ ∃ op, e.shared.sems m = (sh.sems m).apply op := by
  cases o with
  | semWait m' l | semSignal m' l =>
    cases h
    by_cases hm : m = m'
    · subst hm
      exact .inr ⟨_, update_self ..⟩
    · exact .inl (update_of_ne hm ..)
  | wait c l | signal c l =>
    simp only [Shared.effect] at h
    split at h <;> cases h <;> exact .inl rfl
  | done => cases h
  | _ => cases h; exact .inl rfl

/-- Processes wait for a semaphore only where it has no permit. -/
theorem sem_ok (h : g.Reachable s) (m : M) : (s.shared.sems m).Ok := by
  refine h.invariant (I := fun s => (s.shared.sems m).Ok) (fun hw => absurd rfl hw)
    fun s p t hI hs => ?_
  rcases step_cases hs with ⟨e, _, he, rfl⟩ | ⟨_, rfl⟩
  · rcases effect_sem he m with hm | ⟨op, hm⟩
    · rw [State.after_shared, hm]
      exact hI
    · rw [State.after_shared, hm]
      exact hI.apply op
  · exact hI

/-- A process sleeps on a semaphore only where it has no permit. -/
theorem asleep_count (h : g.Reachable s) {m : M} {l : L p} (hpc : s.pc p = .asleep (.sem m) l) :
    (s.shared.sems m).count ≤ 0 := by
  refine sem_ok h m (List.ne_nil_of_mem (a := p) ?_)
  exact (h.ok.mem_queue (.sem m) p).mpr (by rw [hpc]; rfl)

/-! ## Sums over the processes -/

variable [Fintype P]

/-- Where one process goes on, a sum changes by its own term. -/
theorem sum_update (w : ∀ p, L p → Int) (locs : ∀ p, L p) (p : P) (l : L p) :
    ∑ q, w q (update locs p l q) = (∑ q, w q (locs q)) - w p (locs p) + w p l := by
  rw [← Finset.sum_erase_add _ _ (Finset.mem_univ p),
    ← Finset.sum_erase_add (a := p) _ (fun q => w q (locs q)) (Finset.mem_univ p), update_self]
  have hsame : ∑ q ∈ Finset.univ.erase p, w q (update locs p l q) =
      ∑ q ∈ Finset.univ.erase p, w q (locs q) :=
    Finset.sum_congr rfl fun q hq => by rw [update_of_ne (Finset.ne_of_mem_erase hq)]
  omega

/-- The length of a queue, as a sum over the processes. -/
theorem Ok.queue_length (h : Ok g s) (w : Place C M) :
    ((s.shared.queue w).length : Int) = ∑ p, if (s.pc p).place = some w then 1 else 0 := by
  have hset : (s.shared.queue w).toFinset =
      Finset.univ.filter fun p => (s.pc p).place = some w := by
    ext p
    simp [h.mem_queue]
  rw [Finset.sum_boole, ← hset, List.toFinset_card_of_nodup (h.nodup w)]

/-- What a process has got from a semaphore: what it asked for, less the unit
for which it still waits. -/
def State.got (s : State P L V C M) (m : M) (asked : ∀ p, L p → Int) (p : P) : Int :=
  asked p (s.locs p) - if (s.pc p).place = some (.sem m) then 1 else 0

/-- A semaphore holds what it held at first, less what the processes have got
from it. -/
theorem semaphore_law {m : M} (asked : ∀ p, L p → Int)
    (hasked : ∀ p l v l' v', (g.op p l).next v = some (l', v') →
      asked p l' = asked p l + (g.op p l).units m)
    (h : g.Reachable s) :
    (s.shared.sems m).count + ∑ p, s.got m asked p = g.count m + ∑ p, asked p (g.start p) := by
  have hlength := h.ok.queue_length (.sem m)
  have hsum : (s.shared.sems m).count - ((s.shared.sems m).waiting.length : Int) +
      ∑ p, asked p (s.locs p) = g.count m + ∑ p, asked p (g.start p) := by
    refine h.invariant (I := fun s => (s.shared.sems m).count -
      ((s.shared.sems m).waiting.length : Int) + ∑ p, asked p (s.locs p) =
        g.count m + ∑ p, asked p (g.start p)) ?_ fun s p t hI hs => ?_
    · simp only [Program.init, State.locs, Point.loc_ready, List.length_nil]
      omega
    · rcases step_cases hs with ⟨e, _, he, rfl⟩ | ⟨_, rfl⟩
      · have hsems := effect_sems he m
        have hnext := hasked _ _ _ _ _ (effect_next he)
        rw [locs_after, sum_update, State.after_shared]
        omega
      · rw [locs_after, sum_update, loc_take]
        simp only [State.after_shared, Shared.take]
        omega
  simp only [State.got, Finset.sum_sub_distrib]
  simp only [Shared.queue] at hlength
  omega

/-! ## The end of a run -/

/-- How far a point is from the end. -/
def Point.height (r : X → Nat) : Point X C M → Nat
  | .ready l | .asleep .lock l | .asleep (.sem _) l => 3 * r l
  | .asleep (.cond _) l => 3 * r l + 2
  | .woken l => 3 * r l + 1

omit [DecidableEq C] [DecidableEq M] in
theorem height_le (r : X → Nat) (x : Point X C M) : x.height r ≤ 3 * r x.loc + 2 := by
  rcases x with l | ⟨_ | _ | _, l⟩ | l <;> simp [Point.height]

omit [DecidableEq C] [DecidableEq M] in
theorem height_wake (r : X → Nat) (x : Point X C M) : x.wake.height r ≤ x.height r := by
  rcases x with l | ⟨_ | _ | _, l⟩ | l <;> simp [Point.height, Point.wake]

/-- Each step brings the processes nearer to the end. -/
theorem height_step {rank : ∀ p, L p → Nat}
    (hrank : ∀ p l v l' v', (g.op p l).next v = some (l', v') → rank p l' < rank p l)
    (hs : g.Step s p t) :
    ∑ q, (t.pc q).height (rank q) < ∑ q, (s.pc q).height (rank q) := by
  obtain ⟨e, hlt, rfl⟩ : ∃ e, e.point.height (rank p) < (s.pc p).height (rank p) ∧
      t = s.after p e := by
    rcases step_cases hs with ⟨e, hpc, he, rfl⟩ | ⟨hpc, rfl⟩
    · refine ⟨e, ?_, rfl⟩
      have hle := height_le (rank p) e.point
      have hlt := hrank _ _ _ _ _ (effect_next he)
      rw [hpc, Point.height]
      omega
    · refine ⟨_, ?_, rfl⟩
      rw [hpc]
      simp only [Shared.take]
      split <;> simp [Point.height]
  refine Finset.sum_lt_sum (fun q _ => ?_) ⟨p, Finset.mem_univ p, by rwa [State.after_self]⟩
  by_cases hq : q = p
  · subst hq
    rw [State.after_self]
    exact hlt.le
  · rw [s.after_of_ne e hq]
    split
    · exact height_wake _ _
    · exact le_refl _

/-- No run is longer than the way to the end. -/
theorem run_length {rank : ∀ p, L p → Nat}
    (hrank : ∀ p l v l' v', (g.op p l).next v = some (l', v') → rank p l' < rank p l)
    {tr : List (runs.Move (State P L V C M) P)} (hr : runs.Run g.Step s tr t) :
    tr.length + ∑ q, (t.pc q).height (rank q) ≤ ∑ q, (s.pc q).height (rank q) := by
  induction hr with
  | nil => simp
  | snoc _ hs ih =>
    have hlt := height_step hrank hs
    rw [List.length_append, List.length_singleton]
    omega

/-- Where each operation brings its process nearer to the end, every run comes
to a state in which no process can run. -/
theorem exists_stuck {rank : ∀ p, L p → Nat}
    (hrank : ∀ p l v l' v', (g.op p l).next v = some (l', v') → rank p l' < rank p l)
    (s : State P L V C M) : ∃ tr t, runs.Run g.Step s tr t ∧ g.Stuck t := by
  generalize hn : ∑ q, (s.pc q).height (rank q) = n
  induction n using Nat.strong_induction_on generalizing s with
  | _ n ih =>
    by_cases hstuck : g.Stuck s
    · exact ⟨[], s, .nil, hstuck⟩
    · obtain ⟨p, hp⟩ := not_forall.mp hstuck
      obtain ⟨t, ht⟩ := Option.ne_none_iff_exists'.mp hp
      have hs : g.Step s p t := ht
      obtain ⟨tr, u, hr, hu⟩ := ih _ (hn ▸ height_step hrank hs) t rfl
      exact ⟨_, u, hr.cons hs, hu⟩

end monitor
