-- What the programs of the users may rely on, in every run of the kernel: it
-- runs them as their monitor does, their calls succeed, and each of them is
-- alone with the shared page.
import DlxOs.AtmosphereKernel

namespace dlxos

open Function runs monitor

variable {P V C M : Type} {L : P → Type} [DecidableEq P] [DecidableEq C] [DecidableEq M]
  {g : Program P L V C M} {B : Binding C M} {w w' : World P L V} {x y : Pid} {p : P}
  {tr : List (Move (World P L V) (Option Label))} {mv : Move (World P L V) (Option Label)}

namespace World

/-- What is known of the world before a step of a run, and the step. -/
theorem Starts.at_move (hb : Bounded g) (h0 : w.Starts g B) (hr : Run (World.Step g B) w tr w')
    (hmv : mv ∈ tr) : mv.pre.Ok B ∧ (∃ s, g.Reachable s ∧ mv.pre.Shows B s) ∧
      World.Step g B mv.pre mv.label mv.post := by
  obtain ⟨tr1, tr2, rfl⟩ := List.append_of_mem hmv
  obtain ⟨t, hr1, hr2⟩ := hr.split
  obtain ⟨rfl, hs, _⟩ := hr2.uncons
  obtain ⟨hok, hshows⟩ := h0.run hb hr1
  exact ⟨hok, hshows, hs⟩

/-- The timer and the end of a process return to no call. -/
theorem returns_none {a b : System} {v : Int} {e : Event} {r : Return}
    (hs : a.step v e = some (b, r)) (he : e = .timer ∨ e = .exit) : r = none := by
  cases System.steps hs with
  | timer | exit => rfl
  | _ => simp at he

/-- The end of a sleep succeeds. -/
theorem resume_returns {a b : System} {v : Int} {c : Call} {n : Int}
    (hs : a.step v .resume = some (b, some (c, n))) : n = SYNC_SUCCESS := by
  obtain ⟨x, c', stop, d, res, _, hc, _, hr⟩ := step_resume hs
  cases hc with
  | returns =>
    cases hr
    rfl
  | acquires _ hb =>
    cases hb with
    | owned | takes =>
      cases hr
      rfl
    | sleeps => cases hr

end World

open World

/-- Where a call of a program returns, it was done. -/
theorem calls_of_programs_succeed (hb : Bounded g) (h0 : w.Starts g B)
    (hr : Run (World.Step g B) w tr w') (hmv : mv ∈ tr)
    (hx : mv.pre.machine.system.current = some x) (hp : mv.pre.pid p = some x) {e : Entry}
    {c : Call} {n : Int} (hl : mv.label = some (e, some (c, n))) : n = SYNC_SUCCESS := by
  obtain ⟨hok, ⟨s, hs, hw⟩, hstep⟩ := h0.at_move hb hr hmv
  obtain ⟨pre, label, post⟩ := mv
  dsimp only at hok hw hstep hx hp hl
  subst hl
  cases hstep with
  | kernel hm he =>
    obtain ⟨_, v, hv⟩ := (hok.reachable.good.step hm).1
    rcases he with he | he <;> simp only [he] at hv
    · cases returns_none hv (.inl rfl)
    · exact resume_returns hv
  | stranger hm hstr _ => exact absurd hp (hstr x hx p)
  | call hm hx' hp' hop he =>
    rcases (hw.call hb hok hs hm hx' hp' hop he).1 with hnone | hsome
    · cases hnone
    · cases hsome
      rfl
  | exit hm hx' hp' hop he =>
    obtain ⟨_, v, hv⟩ := (hok.reachable.good.step hm).1
    cases returns_none hv (.inr he)

theorem call_of_a_kernel_run : ∃ mv : Move (World q5.Proc q5.L q5.Stat) (Option Label),
    mv.pre.pid .producer_n = some 30 ∧ (1 : Int) = SYNC_SUCCESS := by
  obtain ⟨w, tr, w', h0, hr, _, _, _, ⟨mv, hmv, e, hx, hp, hl⟩, _⟩ := q5.exists_kernel_run
  exact ⟨mv, hp, calls_of_programs_succeed (q5.bounded 2 0 100) h0 hr hmv hx hp hl⟩

/-- A program that reads or writes the shared page owns the lock of the kernel,
and no other program is in its section, unless it sleeps in the kernel. -/
theorem no_races (hb : Bounded g) (h0 : w.Starts g B) (hr : Run (World.Step g B) w tr w')
    (hmv : mv ∈ tr) (hl : mv.label = none) (hpid : mv.post.pid = mv.pre.pid) :
    ∃ p x, mv.pre.machine.system.current = some x ∧ mv.pre.pid p = some x ∧
      (mv.pre.machine.system.locks B.lock).pid = x.val ∧
      ∀ p' y, p' ≠ p → mv.pre.pid p' = some y → mv.pre.machine.system.stopped y = none →
        g.inside p' (mv.pre.loc p') = false := by
  obtain ⟨hok, ⟨s, hs, hw⟩, hstep⟩ := h0.at_move hb hr hmv
  obtain ⟨pre, label, post⟩ := mv
  dsimp only at hok hw hstep hl hpid ⊢
  subst hl
  cases hstep with
  | @start p x hx hf hstr hp hstart =>
    have hsame : update pre.pid p (some x) p = pre.pid p := congrFun hpid p
    rw [update_self, hp] at hsame
    cases hsame
  | @access p x f hx hf hp hop =>
    have hobeys := g.obeys p (pre.loc p)
    rw [hop] at hobeys
    have hown := (hs.ok.owner p).mpr ⟨_, hw.ready hp hf, hobeys.1⟩
    refine ⟨p, x, hx, hp, lockView_owner.mp ((hw.owner hok hp).mpr hown),
      fun p' y hne hp' hf' => ?_⟩
    rw [← Bool.not_eq_true]
    intro hin
    have hown' := (hs.ok.owner p').mpr ⟨_, hw.ready hp' hf', hin⟩
    exact hne (Option.some.inj (hown'.symm.trans hown))

theorem owner_of_a_kernel_run : ∃ mv : Move (World q5.Proc q5.L q5.Stat) (Option Label),
    ∃ p x, mv.pre.pid p = some x ∧ (mv.pre.machine.system.locks 0).pid = x.val := by
  obtain ⟨w, tr, w', h0, hr, _, _, _, _, mv, hmv, hl, hpid⟩ := q5.exists_kernel_run
  obtain ⟨p, x, _, hp, hown, _⟩ := no_races (q5.bounded 2 0 100) h0 hr hmv hl hpid
  exact ⟨mv, p, x, hp, hown⟩

end dlxos
