-- Monitors: processes that share a memory under one lock, with condition
-- variables and semaphores that are handed over in the order of arrival. A
-- process that is signalled has to take the lock again. The module names no
-- program: each process has its own places `L p` in a program, and an
-- operation for each of them.
import DlxOs.Fifo
import Mathlib.Algebra.BigOperators.Group.Finset.Basic
import Mathlib.Logic.Function.Basic

namespace monitor

open Function

/-! ## Programs -/

/-- Where a process can sleep. -/
inductive Place (C M : Type) where
  | lock
  | cond (c : C)
  | sem (m : M)
deriving DecidableEq

/-- The state of one process: it is about to run the operation at `l`, or
will come to `l` once it wakes up. -/
inductive Point (X C M : Type) where
  | ready (l : X)
  | asleep (w : Place C M) (l : X)
  /-- It was signalled, and takes the lock next. -/
  | woken (l : X)

/-- An operation, with the place at which the process goes on. -/
inductive Op (X V C M : Type) where
  | acquire (l : X)
  | release (l : X)
  | wait (c : C) (l : X)
  | signal (c : C) (l : X)
  | semWait (m : M) (l : X)
  | semSignal (m : M) (l : X)
  /-- A statement that reads or writes the memory. -/
  | access (f : V → V × X)
  | done

/-- The operation keeps the discipline of the lock: `b` says whether its place
lies between `acquire` and `release`. -/
def Op.Obeys {X V C M : Type} (inside : X → Bool) (b : Bool) : Op X V C M → Prop
  | .acquire l => b = false ∧ inside l = true
  | .release l => b = true ∧ inside l = false
  | .wait _ l | .signal _ l => b = true ∧ inside l = true
  | .semWait _ l | .semSignal _ l => b = false ∧ inside l = false
  | .access f => b = true ∧ ∀ v, inside (f v).2 = true
  | .done => b = false

/-- The programs of all processes, and the memory at their start. -/
structure Program (P : Type) (L : P → Type) (V C M : Type) where
  op : ∀ p, L p → Op (L p) V C M
  inside : ∀ p, L p → Bool
  obeys : ∀ p l, (op p l).Obeys (inside p) (inside p l)
  start : ∀ p, L p
  outside : ∀ p, inside p (start p) = false
  mem : V
  count : M → Int

/-! ## Steps -/

/-- What the processes share. -/
structure Shared (P V C M : Type) where
  mem : V
  lock : fifo.Lock P
  conds : C → List P
  sems : M → fifo.Sem P

structure State (P : Type) (L : P → Type) (V C M : Type) where
  pc : ∀ p, Point (L p) C M
  shared : Shared P V C M

/-- What an operation does: where its process is then, what is shared then,
and the process that it wakes. -/
structure Effect (X P V C M : Type) where
  point : Point X C M
  shared : Shared P V C M
  woke : Option P

namespace Point

variable {X C M : Type}

/-- The place in the program. -/
def loc : Point X C M → X
  | .ready l | .asleep _ l | .woken l => l

/-- The queue on which the process is. -/
def place : Point X C M → Option (Place C M)
  | .asleep w _ => some w
  | .ready _ | .woken _ => none

/-- A process that a condition wakes takes the lock again. -/
def wake : Point X C M → Point X C M
  | .asleep (.cond _) l => .woken l
  | .asleep .lock l | .asleep (.sem _) l => .ready l
  | x => x

@[simp] theorem loc_ready (l : X) : (Point.ready l : Point X C M).loc = l := rfl
@[simp] theorem loc_asleep (w : Place C M) (l : X) : (Point.asleep w l).loc = l := rfl
@[simp] theorem loc_woken (l : X) : (Point.woken l : Point X C M).loc = l := rfl
@[simp] theorem place_ready (l : X) : (Point.ready l : Point X C M).place = none := rfl
@[simp] theorem place_asleep (w : Place C M) (l : X) : (Point.asleep w l).place = some w := rfl
@[simp] theorem place_woken (l : X) : (Point.woken l : Point X C M).place = none := rfl

@[simp] theorem loc_wake (x : Point X C M) : x.wake.loc = x.loc := by
  rcases x with l | ⟨_ | _ | _, l⟩ | l <;> rfl

@[simp] theorem place_wake (x : Point X C M) : x.wake.place = none := by
  rcases x with l | ⟨_ | _ | _, l⟩ | l <;> rfl

end Point

section Steps

variable {P V C M X : Type} {L : P → Type}

/-- The processes that sleep at a place. -/
def Shared.queue (s : Shared P V C M) : Place C M → List P
  | .lock => s.lock.waiting
  | .cond c => s.conds c
  | .sem m => (s.sems m).waiting

/-- Whether a process that sleeps at the place comes back with the lock. -/
def Place.inside : Place C M → Bool
  | .lock | .cond _ => true
  | .sem _ => false

/-- The queues hold the processes that sleep, and the owner of the lock is the
one that runs between `acquire` and `release`. -/
structure Ok (g : Program P L V C M) (s : State P L V C M) : Prop where
  lock : s.shared.lock.Ok
  nodup : ∀ w, (s.shared.queue w).Nodup
  mem_queue : ∀ w p, p ∈ s.shared.queue w ↔ (s.pc p).place = some w
  owner : ∀ p, s.shared.lock.owner = some p ↔ ∃ l, s.pc p = .ready l ∧ g.inside p l = true
  asleep : ∀ p w l, s.pc p = .asleep w l → g.inside p l = w.inside
  woken : ∀ p l, s.pc p = .woken l → g.inside p l = true

/-- What an effect does to the queues: its process joins the queue where it
sleeps, and the process that it wakes leaves. -/
def Requeues (s : Shared P V C M) (p : P) (e : Effect X P V C M) : Prop :=
  ∀ w, (e.shared.queue w).Nodup ∧ ∀ r, r ∈ e.shared.queue w ↔
    (r = p ∧ e.point.place = some w) ∨ (r ∈ s.queue w ∧ e.woke ≠ some r)

theorem Ok.not_mem {g : Program P L V C M} {s : State P L V C M} {p : P} (h : Ok g s)
    (hp : (s.pc p).place = none) (w : Place C M) : p ∉ s.shared.queue w := by
  rw [h.mem_queue, hp]
  simp

theorem mem_tail {xs : List P} (h : xs.Nodup) (r : P) :
    r ∈ xs.tail ↔ r ∈ xs ∧ xs.head? ≠ some r := by
  rcases xs with _ | ⟨x, xs⟩
  · simp
  · have hx : x ∉ xs := (List.nodup_cons.mp h).1
    simp only [List.tail_cons, List.mem_cons, List.head?_cons, ne_eq, Option.some.injEq]
    constructor
    · intro hr
      exact ⟨.inr hr, fun he => hx (he ▸ hr)⟩
    · rintro ⟨rfl | hr, hne⟩
      · exact absurd rfl hne
      · exact hr

theorem nodup_snoc {xs : List P} (h : xs.Nodup) (hp : p ∉ xs) : (xs ++ [p]).Nodup := by
  refine List.nodup_append.mpr ⟨h, by simp, ?_⟩
  rintro x hx y hy rfl
  obtain rfl : x = p := by simpa using hy
  exact hp hx

variable [DecidableEq P]

namespace Shared

/-- The process that the release of the lock wakes. -/
def handed (s : Shared P V C M) (p : P) : Option P :=
  if s.lock.owner = some p then s.lock.waiting.head? else none

/-- The process takes the lock, or sleeps until it gets it. -/
def take (s : Shared P V C M) (p : P) (l : X) : Effect X P V C M :=
  let lock := s.lock.apply (.acquire p)
  ⟨if lock.owner = some p then .ready l else .asleep .lock l, { s with lock }, none⟩

end Shared

/-- The processes once one of them has woken another one. -/
def wakeUp (pc : ∀ p, Point (L p) C M) (woke : Option P) (p : P) : Point (L p) C M :=
  if woke = some p then (pc p).wake else pc p

/-- The effect of an operation of one process on all of them. -/
def State.after (s : State P L V C M) (p : P) (e : Effect (L p) P V C M) : State P L V C M :=
  ⟨update (wakeUp s.pc e.woke) p e.point, e.shared⟩

/-- Where the processes are in their programs, whether they sleep or not. -/
def State.locs (s : State P L V C M) (p : P) : L p := (s.pc p).loc

@[simp] theorem State.after_shared (s : State P L V C M) (p : P) (e : Effect (L p) P V C M) :
    (s.after p e).shared = e.shared := rfl

@[simp] theorem State.after_self (s : State P L V C M) (p : P) (e : Effect (L p) P V C M) :
    (s.after p e).pc p = e.point := update_self ..

theorem State.after_of_ne (s : State P L V C M) {p q : P} (e : Effect (L p) P V C M) (h : q ≠ p) :
    (s.after p e).pc q = if e.woke = some q then (s.pc q).wake else s.pc q := update_of_ne h ..

variable {g : Program P L V C M} {s t : State P L V C M} {p q : P} {w : Place C M}

/-- Where the effect keeps the queues and the lock in order, all is in order
after it. -/
theorem Ok.after (h : Ok g s) (hp : (s.pc p).place = none) {e : Effect (L p) P V C M}
    (hlock : e.shared.lock.Ok) (hqueue : Requeues s.shared p e)
    (hself : e.shared.lock.owner = some p ↔ ∃ l, e.point = .ready l ∧ g.inside p l = true)
    (hother : ∀ r, r ≠ p → (e.shared.lock.owner = some r ↔
      s.shared.lock.owner = some r ∨ e.woke = some r ∧ (s.pc r).place = some .lock))
    (hasleep : ∀ w l, e.point = .asleep w l → g.inside p l = w.inside)
    (hwoken : ∀ l, e.point ≠ .woken l) :
    Ok g (s.after p e) := by
  refine ⟨hlock, fun w => (hqueue w).1, fun w r => ?_, fun r => ?_, fun r w l => ?_, fun r l => ?_⟩
  all_goals
    by_cases hr : r = p
    on_goal 2 => rw [s.after_of_ne e hr]
  · subst hr
    rw [State.after_shared, (hqueue w).2, State.after_self]
    simp [h.not_mem hp w]
  · rw [State.after_shared, (hqueue w).2, h.mem_queue]
    split <;> simp [*]
  · subst hr
    rw [State.after_shared, hself, State.after_self]
  · rw [State.after_shared, hother r hr, h.owner]
    split
    · rename_i hw
      rcases hpc : s.pc r with l | ⟨_ | c | m, l⟩ | l
      · simp [hw, Point.wake]
      · have := h.asleep r _ l hpc
        simp [hw, Point.wake, this, Place.inside]
      · simp [Point.wake]
      · have := h.asleep r _ l hpc
        simp [Point.wake, this, Place.inside]
      · simp [Point.wake]
    · simp [*]
  · subst hr
    rw [State.after_self]
    exact hasleep w l
  · split
    · intro he
      have := congrArg Point.place he
      simp at this
    · exact h.asleep r w l
  · subst hr
    rw [State.after_self]
    exact fun he => absurd he (hwoken l)
  · split
    · intro he
      rcases hpc : s.pc r with l' | ⟨_ | c | m, l'⟩ | l' <;> rw [hpc] at he <;>
        simp only [Point.wake, Point.woken.injEq, reduceCtorEq] at he
      · subst he
        exact h.asleep r _ l' hpc
      · subst he
        exact h.woken r l' hpc
    · exact h.woken r l

/-- The owner hands the lock to a process that sleeps until it gets it. -/
theorem Ok.handed (h : Ok g s) (hp : (s.pc p).place = none)
    (ho : s.shared.lock.owner = some p) :
    (s.shared.lock.apply (.release p)) = ⟨s.shared.handed p, s.shared.lock.waiting.tail⟩ ∧
      s.shared.handed p = s.shared.lock.waiting.head? ∧ s.shared.handed p ≠ some p ∧
      ∀ r, s.shared.handed p = some r → (s.pc r).place = some .lock := by
  have hhead : s.shared.handed p = s.shared.lock.waiting.head? := by
    rw [Shared.handed, if_pos ho]
  refine ⟨by simp [fifo.Lock.apply, ho, hhead], hhead, ?_, ?_⟩
  · intro he
    exact h.not_mem hp .lock (List.mem_of_mem_head? (hhead ▸ he))
  · intro r hr
    exact (h.mem_queue .lock r).mp (List.mem_of_mem_head? (hhead ▸ hr))

/-- Where the effect leaves the lock alone, so does it leave its owner. -/
theorem Ok.after_same (h : Ok g s) (hp : (s.pc p).place = none) {e : Effect (L p) P V C M}
    (hlock : e.shared.lock = s.shared.lock) (hqueue : Requeues s.shared p e)
    (hself : s.shared.lock.owner = some p ↔ ∃ l, e.point = .ready l ∧ g.inside p l = true)
    (hwoke : ∀ r, e.woke = some r → (s.pc r).place ≠ some .lock)
    (hasleep : ∀ w l, e.point = .asleep w l → g.inside p l = w.inside)
    (hwoken : ∀ l, e.point ≠ .woken l) : Ok g (s.after p e) := by
  refine h.after hp (hlock ▸ h.lock) hqueue (hlock ▸ hself) (fun r _ => ?_) hasleep hwoken
  rw [hlock]
  constructor
  · exact .inl
  · rintro (ho | ⟨hw, hpl⟩)
    · exact ho
    · exact absurd hpl (hwoke r hw)

variable [DecidableEq C] [DecidableEq M]

/-- The operation, where it does not end the process. To wait without the lock
ends everything. -/
def Shared.effect (s : Shared P V C M) (p : P) : Op X V C M → Option (Effect X P V C M)
  | .acquire l => some (s.take p l)
  | .release l => some ⟨.ready l, { s with lock := s.lock.apply (.release p) }, s.handed p⟩
  | .wait c l =>
    if s.lock.owner = some p then
      some ⟨.asleep (.cond c) l,
        { s with
          lock := s.lock.apply (.release p)
          conds := update s.conds c (s.conds c ++ [p]) },
        s.handed p⟩
    else none
  | .signal c l =>
    if s.lock.owner = some p then
      some ⟨.ready l, { s with conds := update s.conds c (s.conds c).tail }, (s.conds c).head?⟩
    else some ⟨.ready l, s, none⟩
  | .semWait m l =>
    some ⟨if (s.sems m).count ≤ 0 then .asleep (.sem m) l else .ready l,
      { s with sems := update s.sems m ((s.sems m).apply (.wait p)) }, none⟩
  | .semSignal m l =>
    some ⟨.ready l, { s with sems := update s.sems m ((s.sems m).apply .signal) },
      ((s.sems m).grants .signal).head?⟩
  | .access f => some ⟨.ready (f s.mem).2, { s with mem := (f s.mem).1 }, none⟩
  | .done => none

namespace Program

variable (g : Program P L V C M)

def init : State P L V C M :=
  ⟨fun p => .ready (g.start p), ⟨g.mem, ⟨none, []⟩, fun _ => [], fun m => ⟨g.count m, []⟩⟩⟩

def effect (s : State P L V C M) (p : P) : Option (Effect (L p) P V C M) :=
  match s.pc p with
  | .ready l => s.shared.effect p (g.op p l)
  | .asleep _ _ => none
  | .woken l => some (s.shared.take p l)

/-- One process runs one operation. -/
def step (s : State P L V C M) (p : P) : Option (State P L V C M) :=
  (g.effect s p).map fun e => s.after p e

def Step (s : State P L V C M) (p : P) (t : State P L V C M) : Prop := g.step s p = some t

def Reachable (s : State P L V C M) : Prop := ∃ tr, runs.Run g.Step g.init tr s

/-- No process can run. -/
def Stuck (s : State P L V C M) : Prop := ∀ p, g.step s p = none

def Finished (s : State P L V C M) (p : P) : Prop := ∃ l, s.pc p = .ready l ∧ g.op p l = .done

end Program

/-! ## One step -/

/-- A process runs the operation at its place, or it was signalled and asks for
the lock. -/
theorem step_cases (hs : g.Step s p t) :
    (∃ e, s.pc p = .ready (s.locs p) ∧ s.shared.effect p (g.op p (s.locs p)) = some e ∧
      t = s.after p e) ∨
    s.pc p = .woken (s.locs p) ∧ t = s.after p (s.shared.take p (s.locs p)) := by
  obtain ⟨e, he, rfl⟩ := Option.map_eq_some_iff.mp hs
  unfold Program.effect at he
  rcases hpc : s.pc p with l | ⟨w, l⟩ | l
  · rw [hpc] at he
    have hl : s.locs p = l := by simp [State.locs, hpc]
    exact .inl ⟨e, by rw [hl], by rw [hl]; exact he, rfl⟩
  · rw [hpc] at he
    cases he
  · rw [hpc] at he
    cases he
    have hl : s.locs p = l := by simp [State.locs, hpc]
    exact .inr ⟨by rw [hl], by rw [hl]⟩

omit [DecidableEq P] in
theorem queue_conds (s : Shared P V C M) (c : C) (xs : List P) (w : Place C M) :
    ({ s with conds := update s.conds c xs } : Shared P V C M).queue w =
      if w = .cond c then xs else s.queue w := by
  rcases w with _ | c' | m
  · simp [Shared.queue]
  · by_cases hc : c' = c <;> simp [Shared.queue, hc]
  · simp [Shared.queue]

omit [DecidableEq P] in
theorem queue_sems (s : Shared P V C M) (m : M) (x : fifo.Sem P) (w : Place C M) :
    ({ s with sems := update s.sems m x } : Shared P V C M).queue w =
      if w = .sem m then x.waiting else s.queue w := by
  rcases w with _ | c | m'
  · simp [Shared.queue]
  · simp [Shared.queue]
  · by_cases hm : m' = m <;> simp [Shared.queue, hm]

/-- What an effect does to the queues is said by the place where its process
sleeps, and by the place from which it wakes one. -/
theorem Ok.requeues (h : Ok g s) (hp : (s.pc p).place = none) {e : Effect X P V C M}
    (leave : Option (Place C M)) (hwoke : e.woke = leave.bind fun w => (s.shared.queue w).head?)
    (hqueue : ∀ w, e.shared.queue w =
      (if leave = some w then (s.shared.queue w).tail else s.shared.queue w) ++
        if e.point.place = some w then [p] else []) : Requeues s.shared p e := by
  intro w
  rw [hqueue]
  have hp' := h.not_mem hp w
  have hleave : ∀ r, r ∈ (if leave = some w then (s.shared.queue w).tail else s.shared.queue w) ↔
      r ∈ s.shared.queue w ∧ e.woke ≠ some r := by
    intro r
    split
    · rename_i hw
      rw [mem_tail (h.nodup w), hwoke, hw]
      rfl
    · rename_i hw
      refine ⟨fun hr => ⟨hr, fun he => ?_⟩, fun hr => hr.1⟩
      rw [hwoke] at he
      obtain ⟨w', hw', hhead⟩ := Option.bind_eq_some_iff.mp he
      have hr' := (h.mem_queue w' r).mp (List.mem_of_mem_head? hhead)
      rw [(h.mem_queue w r).mp hr] at hr'
      exact hw (hw'.trans hr'.symm)
  have hnodup : (if leave = some w then (s.shared.queue w).tail else s.shared.queue w).Nodup := by
    split
    · exact (h.nodup w).tail
    · exact h.nodup w
  generalize (if leave = some w then (s.shared.queue w).tail else s.shared.queue w) = xs
    at hleave hnodup
  split
  · refine ⟨nodup_snoc hnodup fun hm => hp' ((hleave p).mp hm).1, fun r => ?_⟩
    rw [List.mem_append, hleave, List.mem_singleton]
    tauto
  · refine ⟨by simpa using hnodup, fun r => ?_⟩
    rw [List.append_nil, hleave]
    tauto

/-- A process that takes the lock owns it, or joins its queue. -/
theorem Ok.take (h : Ok g s) (hp : (s.pc p).place = none) (ho : s.shared.lock.owner ≠ some p)
    {l : L p} (hl : g.inside p l = true) : Ok g (s.after p (s.shared.take p l)) := by
  have hlock : (s.shared.lock.apply (.acquire p)).Ok := h.lock.apply (h.not_mem hp .lock)
  unfold Shared.take
  rcases hown : s.shared.lock.owner with _ | q
  · simp only [fifo.Lock.apply, hown] at hlock ⊢
    refine h.after hp hlock (h.requeues hp none rfl ?_) ?_ ?_ ?_ ?_
    · rintro (_ | c | m) <;> simp [Shared.queue]
    · simp [hl]
    · intro r hr
      simp [hown, hr.symm]
    · simp
    · simp
  · have hq : q ≠ p := fun he => ho (hown.trans (he ▸ rfl))
    simp only [fifo.Lock.apply, hown, if_neg hq] at hlock ⊢
    have hqp : some q ≠ some p := fun he => hq (Option.some.inj he)
    simp only [if_neg hqp]
    refine h.after hp hlock (h.requeues hp none rfl ?_) ?_ ?_ ?_ ?_
    · rintro (_ | c | m) <;> simp [Shared.queue]
    · simp [hq]
    · intro r _
      simp [hown]
    · rintro w l' he
      cases he
      exact hl
    · simp

/-- A process that gives the lock away, and may go to sleep. -/
theorem Ok.gives (h : Ok g s) (hp : (s.pc p).place = none) (hown : s.shared.lock.owner = some p)
    {e : Effect (L p) P V C M} (hlock : e.shared.lock = s.shared.lock.apply (.release p))
    (hwoke : e.woke = s.shared.handed p)
    (hqueue : ∀ w, w ≠ .lock →
      e.shared.queue w = s.shared.queue w ++ if e.point.place = some w then [p] else [])
    (hplace : e.point.place ≠ some .lock) (hself : ∀ l, e.point = .ready l → g.inside p l = false)
    (hasleep : ∀ w l, e.point = .asleep w l → g.inside p l = w.inside)
    (hwoken : ∀ l, e.point ≠ .woken l) : Ok g (s.after p e) := by
  obtain ⟨happ, hhd, hne, hwaits⟩ := h.handed hp hown
  have hok : (s.shared.lock.apply (.release p)).Ok := h.lock.apply trivial
  refine h.after hp (hlock ▸ hok) (h.requeues hp (some .lock) (hwoke.trans hhd) fun w => ?_) ?_
    (fun r hr => ?_) hasleep hwoken
  · by_cases hw : w = .lock
    · subst hw
      simp [Shared.queue, hlock, happ, hplace]
    · rw [hqueue w hw, if_neg fun he => hw (Option.some.inj he).symm]
  · rw [hlock, happ]
    refine iff_of_false hne ?_
    rintro ⟨l, hl, hin⟩
    exact Bool.false_ne_true ((hself l hl).symm.trans hin)
  · simp only [hlock, hwoke, happ, hown, Option.some.injEq, hr.symm, false_or]
    exact ⟨fun hh => ⟨hh, hwaits r hh⟩, fun hh => hh.1⟩

theorem Ok.release (h : Ok g s) (hp : (s.pc p).place = none)
    (hown : s.shared.lock.owner = some p) {l : L p} (hl : g.inside p l = false)
    {e : Effect (L p) P V C M} (he : s.shared.effect p (.release l) = some e) :
    Ok g (s.after p e) := by
  cases he
  refine h.gives hp hown rfl rfl ?_ (by simp) ?_ (by simp) (by simp)
  · rintro (_ | c | m) <;> simp [Shared.queue]
  · rintro l' ⟨⟩
    exact hl

theorem Ok.wait (h : Ok g s) (hp : (s.pc p).place = none)
    (hown : s.shared.lock.owner = some p) {c : C} {l : L p} (hl : g.inside p l = true)
    {e : Effect (L p) P V C M} (he : s.shared.effect p (.wait c l) = some e) :
    Ok g (s.after p e) := by
  simp only [Shared.effect, if_pos hown, Option.some.injEq] at he
  subst he
  refine h.gives hp hown rfl rfl ?_ (by simp) (by simp) ?_ (by simp)
  · rintro (_ | c' | m) hw
    · exact absurd rfl hw
    · by_cases hc : c' = c
      · subst hc
        simp [Shared.queue]
      · simp [Shared.queue, hc, Ne.symm hc]
    · simp [Shared.queue]
  · rintro w l' he
    cases he
    exact hl

omit [DecidableEq P] [DecidableEq C] [DecidableEq M] in
/-- Whoever a queue hands out does not wait for the lock. -/
theorem Ok.head_place (h : Ok g s) {w : Place C M} (hw : w ≠ .lock) {r : P}
    (hr : (s.shared.queue w).head? = some r) : (s.pc r).place ≠ some .lock := by
  rw [(h.mem_queue w r).mp (List.mem_of_mem_head? hr)]
  simpa using hw

theorem Ok.signal (h : Ok g s) (hp : (s.pc p).place = none)
    (hown : s.shared.lock.owner = some p) {c : C} {l : L p} (hl : g.inside p l = true)
    {e : Effect (L p) P V C M} (he : s.shared.effect p (.signal c l) = some e) :
    Ok g (s.after p e) := by
  simp only [Shared.effect, if_pos hown, Option.some.injEq] at he
  subst he
  refine h.after_same hp rfl (h.requeues hp (some (.cond c)) rfl fun w => ?_) ?_
    (fun r hr => h.head_place (w := .cond c) (by simp) hr) (by simp) (by simp)
  · rw [queue_conds]
    by_cases hw : w = .cond c
    · subst hw
      simp [Shared.queue]
    · simp [hw, Ne.symm hw]
  · simp [hown, hl]

theorem Ok.semWait (h : Ok g s) (hp : (s.pc p).place = none)
    (hown : s.shared.lock.owner ≠ some p) {m : M} {l : L p} (hl : g.inside p l = false)
    {e : Effect (L p) P V C M} (he : s.shared.effect p (.semWait m l) = some e) :
    Ok g (s.after p e) := by
  cases he
  refine h.after_same hp rfl (h.requeues hp none rfl fun w => ?_) ?_ (by simp) ?_ ?_
  · rw [queue_sems]
    by_cases hw : w = .sem m
    · subst hw
      by_cases hc : (s.shared.sems m).count ≤ 0 <;> simp [fifo.Sem.apply, hc, Shared.queue]
    · by_cases hc : (s.shared.sems m).count ≤ 0 <;> simp [hw, Ne.symm hw, hc]
  · split <;> simp [hown, hl]
  · intro w l he
    split at he
    · cases he
      exact hl
    · cases he
  · intro l
    split <;> simp

theorem Ok.semSignal (h : Ok g s) (hp : (s.pc p).place = none)
    (hown : s.shared.lock.owner ≠ some p) {m : M} {l : L p} (hl : g.inside p l = false)
    {e : Effect (L p) P V C M} (he : s.shared.effect p (.semSignal m l) = some e) :
    Ok g (s.after p e) := by
  cases he
  have hgrants : ((s.shared.sems m).grants .signal).head? =
      (if 0 < (s.shared.sems m).count + 1 then some (.sem m) else none).bind fun w =>
        (s.shared.queue w).head? := by
    simp only [fifo.Sem.grants]
    split
    · simp [List.head?_take, Shared.queue]
    · rfl
  refine h.after_same hp rfl (h.requeues hp _ hgrants fun w => ?_) ?_ (fun r hr => ?_) (by simp)
    (by simp)
  · rw [queue_sems]
    by_cases hw : w = .sem m
    · subst hw
      rcases hq : (s.shared.sems m).waiting with _ | ⟨q, qs⟩ <;>
        by_cases hc : 0 < (s.shared.sems m).count + 1 <;>
          simp [fifo.Sem.apply, hc, Shared.queue, hq]
    · by_cases hc : 0 < (s.shared.sems m).count + 1 <;> simp [hw, Ne.symm hw, hc]
  · simp [hown, hl]
  · rw [hgrants] at hr
    obtain ⟨w, hw, hr⟩ := Option.bind_eq_some_iff.mp hr
    split at hw
    · cases hw
      exact h.head_place (by simp) hr
    · cases hw

theorem Ok.access (h : Ok g s) (hp : (s.pc p).place = none)
    (hown : s.shared.lock.owner = some p) {f : V → V × L p} (hl : ∀ v, g.inside p (f v).2 = true)
    {e : Effect (L p) P V C M} (he : s.shared.effect p (.access f) = some e) :
    Ok g (s.after p e) := by
  cases he
  refine h.after_same hp rfl (h.requeues hp none rfl ?_) ?_ (by simp) (by simp) (by simp)
  · rintro (_ | c | m) <;> simp [Shared.queue]
  · simp [hown, hl]

theorem Ok.step (h : Ok g s) (hs : g.Step s p t) : Ok g t := by
  rcases step_cases hs with ⟨e, hpc, he, rfl⟩ | ⟨hpc, rfl⟩
  · generalize s.locs p = l at hpc he
    have hp : (s.pc p).place = none := by rw [hpc]; rfl
    have hin : s.shared.lock.owner = some p ↔ g.inside p l = true := by
      rw [h.owner, hpc]
      simp
    have hout : g.inside p l = false → s.shared.lock.owner ≠ some p := fun hl ho =>
      Bool.false_ne_true (hl.symm.trans (hin.mp ho))
    have hobeys := g.obeys p l
    cases hop : g.op p l with
    | acquire l' =>
      rw [hop] at he hobeys
      cases he
      exact h.take hp (hout hobeys.1) hobeys.2
    | release l' =>
      rw [hop] at he hobeys
      exact h.release hp (hin.mpr hobeys.1) hobeys.2 he
    | wait c l' =>
      rw [hop] at he hobeys
      exact h.wait hp (hin.mpr hobeys.1) hobeys.2 he
    | signal c l' =>
      rw [hop] at he hobeys
      exact h.signal hp (hin.mpr hobeys.1) hobeys.2 he
    | semWait m l' =>
      rw [hop] at he hobeys
      exact h.semWait hp (hout hobeys.1) hobeys.2 he
    | semSignal m l' =>
      rw [hop] at he hobeys
      exact h.semSignal hp (hout hobeys.1) hobeys.2 he
    | access f =>
      rw [hop] at he hobeys
      exact h.access hp (hin.mpr hobeys.1) hobeys.2 he
    | done =>
      rw [hop] at he
      cases he
  · have hp : (s.pc p).place = none := by rw [hpc]; rfl
    refine h.take hp (fun ho => ?_) (h.woken p _ hpc)
    obtain ⟨l', hl', _⟩ := (h.owner p).mp ho
    cases hl'.symm.trans hpc

omit [DecidableEq P] [DecidableEq C] [DecidableEq M] in
theorem Ok.init (g : Program P L V C M) : Ok g g.init := by
  refine ⟨⟨?_, ?_, ?_⟩, ?_, ?_, ?_, ?_, ?_⟩
  iterate 3 simp [Program.init]
  · rintro (_ | c | m) <;> simp [Program.init, Shared.queue]
  · rintro (_ | c | m) p <;> simp [Program.init, Shared.queue]
  · intro p
    simp [Program.init, g.outside]
  · simp [Program.init]
  · simp [Program.init]

/-- What holds at the start, and is kept by each step, holds of every reachable
state. -/
theorem Program.Reachable.invariant {I : State P L V C M → Prop} (h0 : I g.init)
    (hstep : ∀ s p t, I s → g.Step s p t → I t) (h : g.Reachable s) : I s := by
  obtain ⟨tr, hr⟩ := h
  exact hr.invariant hstep h0

theorem Program.Reachable.ok (h : g.Reachable s) : Ok g s :=
  h.invariant (Ok.init g) fun _ _ _ => Ok.step

theorem Program.Reachable.init : g.Reachable g.init := ⟨[], .nil⟩

theorem Program.Reachable.step (h : g.Reachable s) (hs : g.Step s p t) : g.Reachable t := by
  obtain ⟨tr, hr⟩ := h
  exact ⟨_, hr.snoc hs⟩

/-- A process that can run an operation does so. -/
theorem Program.Reachable.runs {l : L p} {e : Effect (L p) P V C M} (h : g.Reachable s)
    (hpc : s.pc p = .ready l) (he : s.shared.effect p (g.op p l) = some e) :
    g.Reachable (s.after p e) :=
  h.step (p := p) (by simp [Program.Step, Program.step, Program.effect, hpc, he])

/-- A process that was signalled asks for the lock. -/
theorem Program.Reachable.again {l : L p} (h : g.Reachable s) (hpc : s.pc p = .woken l) :
    g.Reachable (s.after p (s.shared.take p l)) :=
  h.step (p := p) (by simp [Program.Step, Program.step, Program.effect, hpc])

end Steps

end monitor
