-- A system call, from its trap to its return. The assembly code brings the
-- registers of the caller back, so the call is to it what the call of a function
-- is. A call that maps a shared page changes the size of the page table too.
import DlxOs.ComputerRuns

namespace dlxos

open Function runs

variable {L : context.Layout Pid} {s s' : context.State Pid} {ev : context.Event Pid}
  {evs evs' pass : List (context.Event Pid)} {p q : Pid} {m m' : Machine} {lab : Label} {c : Call}
  {t : context.Latch} {r : context.Stored} {y z : Nat × context.Stored}

/-! ## A call, from the trap to its return -/

/-- While the process sleeps in a call, one frame is above that of its trap
where it does not run, and none where it runs. -/
def sleepDepth (m : Machine) (p : Pid) : Nat := if m.kernel.currentPCB = some p then 0 else 1

theorem Good.stopped_step (h : Good m) (hs : m.Step lab m') {stop : Stop}
    (hstop : m.system.stopped p = some (c, stop))
    (hret : m.kernel.currentPCB = some p → lab.2 = none) :
    ∃ stop, m'.system.stopped p = some (c, stop) := by
  obtain ⟨⟨hready, v, hv⟩, _⟩ := h.step hs
  rcases step_stopped hv p with he | ⟨hp, _⟩
  · exact ⟨stop, he.trans hstop⟩
  have hp : m.kernel.currentPCB = some p := h.current.trans hp
  cases hev : lab.1.event with
  | call c' =>
    have hnone := (h.call_step hs hev hp).1
    cases hstop.symm.trans hnone
  | resume =>
    obtain ⟨c', stop', hstop', hcall⟩ := h.resume_step hs hev hp
    obtain ⟨rfl, rfl⟩ := Prod.mk.inj (Option.some.inj (hstop.symm.trans hstop'))
    rw [hret hp] at hcall
    cases hcall with
    | sleeps hs' => exact ⟨_, by rw [hs', update_self]⟩
  | _ =>
    have hsame := step_same_stopped hv (by simp [hev]) (by simp [hev])
    exact ⟨stop, by rw [hsame, hstop]⟩

/-- Numbers of pages of other processes do not go to the frame. -/
theorem follow_setPtsize (hqp : q ≠ p) (l : List dlx.Word) :
    (l.map (context.Event.setPtsize q)).foldlM (context.follow1 p true) y = some y := by
  induction l with
  | nil => rfl
  | cons w l ih => simpa [context.follow1, hqp] using ih

/-- One of the process itself does. -/
theorem follow_mapped (z w : Option dlx.Word) :
    (w.toList.map (context.Event.setPtsize p)).foldlM (context.follow1 p true) (0, ⟨none, z⟩) =
      some (0, ⟨none, w.or z⟩) := by
  cases w with
  | none => rfl
  | some w => simp [context.follow1]

/-- The frame of the trap stays, and nothing is stored in it. -/
theorem passage_follow {stop : Stop} (h : Good m) (hs : m.Step lab m')
    (hpass : Passage m m' lab pass) (hstop : m.system.stopped p = some (c, stop))
    (hret : m.kernel.currentPCB = some p → lab.2 = none) :
    pass.foldlM (context.follow1 p true) (sleepDepth m p, ⟨none, none⟩) =
      some (sleepDepth m' p, ⟨none, none⟩) := by
  have hcur := passage_current h hs hpass
  have hready := (h.step hs).1.1
  unfold sleepDepth
  rw [← hcur]
  -- a process that is inside of no call is another one
  have hother {q : Pid} (hq : m.system.stopped q = none) : q ≠ p := by
    rintro rfl
    cases hq.symm.trans hstop
  cases hpass with
  | @turn q q' t e he hq hq' =>
    by_cases hqp : q = p <;> by_cases hqp' : q' = p <;>
      simp [context.follow1, currentStep, hq, hqp, hqp']
  | @exit q q' t e he hq hq' =>
    dsimp only at hready
    rw [he] at hready
    obtain ⟨x, hx, hnone⟩ := hready
    obtain rfl := Option.some.inj (hx.symm.trans (h.current ▸ hq))
    have hqp := hother hnone
    rw [List.foldl_append, List.foldl_append, setPtsize_current, List.foldlM_append]
    by_cases hqp' : q' = p <;>
      simp [context.follow1, currentStep, hq, hqp, hqp', follow_setPtsize]
  | @fork q x t e he hq hx =>
    dsimp only at hready
    rw [he] at hready
    have hqp := hother (hready q (h.current ▸ hq))
    have hxp := hother (h.free_stopped (List.mem_of_mem_head? hx))
    simp [context.follow1, currentStep, hq, hqp, hxp]
  | @forkFails q t e he hq =>
    dsimp only at hready
    rw [he] at hready
    have hqp := hother (hready q (h.current ▸ hq))
    simp [context.follow1, currentStep, hq, hqp]
  | @first x e he hq hx =>
    have hxp := hother (h.free_stopped (List.mem_of_mem_head? hx))
    simp [context.follow1, currentStep, hq, hxp]
  | firstFails he hq => simp [hq]
  | @returns q c' n t e he hq =>
    have hqp := hother (h.call_step hs he hq).1
    rw [List.foldl_append, List.foldl_append, setPtsize_current, List.foldlM_append]
    simp [context.follow1, currentStep, hq, hqp, follow_setPtsize]
  | @sleeps q q' c' t u e he hq hq' =>
    have hqp := hother (h.call_step hs he hq).1
    by_cases hqp' : q' = p <;> simp [context.follow1, currentStep, hq, hqp, hqp']
  | @wakes q c' n e he hq =>
    have hqp : q ≠ p := by
      rintro rfl
      cases hret hq
    simp [context.follow1, currentStep, hq, hqp]
  | @sleepsAgain q q' u e he hq hq' =>
    by_cases hqp : q = p <;> by_cases hqp' : q' = p <;>
      simp [context.follow1, currentStep, hq, hqp, hqp']

/-- The calls that map pages do not sleep. -/
theorem mapped_of_sleeps {e : Entry} (h : Good m) (hs : m.Step (e, none) m')
    (he : e.event = .call c) (m1 m2 : Machine) : mapped m1 m2 p c = none := by
  obtain ⟨⟨_, v, hv⟩, _⟩ := h.step hs
  dsimp only at hv
  rw [he] at hv
  obtain ⟨_, _, res, _, hc, _, hres⟩ := step_call hv
  cases hc with
  | shareCreatePage | shareMapPage | unnamed => cases hres
  | _ => rfl

namespace Computer

variable {x x' x0 x1 x2 : Computer} {tr : List (Move Computer Act)} {act : Act}

/-- The process is inside of the call, and these events came after its trap. -/
structure Inside (p : Pid) (c : Call) (x : Computer) (evs : List (context.Event Pid)) : Prop where
  stopped : ∃ stop, x.machine.system.stopped p = some (c, stop)
  follow : context.follow p true evs = some (sleepDepth x.machine p, ⟨none, none⟩)

/-- The step makes a call of the process, with the trap that the latch shows. -/
def MakesCall (p : Pid) (c : Call) (t : context.Latch) (mv : Move Computer Act) : Prop :=
  mv.pre.machine.kernel.currentPCB = some p ∧
    (∃ e r, mv.label.entry = some (e, r) ∧ e.event = .call c) ∧
    mv.label.events.head? = some (.interrupt p t)

/-- Every call begins with a trap. -/
theorem Step.call_trap {e : Entry} {r : Return} (hs : x.Step L act x')
    (hact : act.entry = some (e, r)) (he : e.event = .call c)
    (hp : x.machine.kernel.currentPCB = some p) :
    ∃ t, act.events.head? = some (.interrupt p t) := by
  obtain ⟨m, s, f⟩ := x'
  obtain ⟨hturn, _⟩ := hs
  cases hturn with
  | entry hm hpass =>
    obtain rfl := Option.some.inj hact
    cases hpass with
    | @returns q _ _ t _ _ hq | @sleeps q _ _ t _ _ _ hq =>
      obtain rfl := Option.some.inj (hq.symm.trans hp)
      exact ⟨t, rfl⟩
    | turn he' => rcases he' with he' | he' <;> cases he'.symm.trans he
    | exit he' | fork he' | forkFails he' | first he' | firstFails he' | sleepsAgain he'
      | wakes he' => cases he'.symm.trans he
  | _ => cases hact

/-- A call of the process returns in the step. -/
def Returns (p : Pid) (mv : Move Computer Act) : Prop :=
  mv.pre.machine.kernel.currentPCB = some p ∧ ∃ e y, mv.label.entry = some (e, some y)

theorem follow_append (h : context.follow p true evs = some y)
    (h' : (evs'.filter fun ev => !isCode ev).foldlM (context.follow1 p true) y = some z) :
    context.follow p true (evs ++ evs') = some z := by
  unfold context.follow at *
  rw [List.foldlM_append, h]
  exact (follow_events p true evs' y).trans h'

theorem Inside.step (h : Inside p c x evs) (hx : x.Ok L) (hs : x.Step L act x')
    (hret : ¬ Returns p ⟨x, act, x'⟩) :
    ∃ evs', context.Run L x.state evs' x'.state ∧ Inside p c x' (evs ++ evs') := by
  obtain ⟨⟨stop, hstop⟩, hfollow⟩ := h
  obtain ⟨m, s, f⟩ := x'
  obtain ⟨hturn, evs', hr, hevs⟩ := hs
  have hother {q : Pid} (hq : x.machine.frames q = none) : q ≠ p := by
    rintro rfl
    simp [Machine.system, hq] at hstop
  have hfile {q : Pid} (hq : x.files q = true) : q ≠ p := by
    rintro rfl
    cases (hx.files q hq).2.symm.trans hstop
  -- where the kernel stays as it is, the events are those of other processes
  have hstay (hpass : act.events.foldlM (context.follow1 p true)
        (sleepDepth x.machine p, ⟨none, none⟩) = some (sleepDepth x.machine p, ⟨none, none⟩)) :
      ∃ evs', context.Run L x.state evs' s ∧ Inside p c ⟨x.machine, s, f⟩ (evs ++ evs') :=
    ⟨evs', hr, ⟨stop, hstop⟩, follow_append hfollow (by rw [hevs]; exact hpass)⟩
  cases hturn with
  | user => exact hstay rfl
  | @trap q t w hp hf =>
    refine hstay ?_
    cases w <;> simp [context.follow1, hother hf]
  | @keyboard q t =>
    refine hstay ?_
    by_cases hqp : q = p <;> simp [context.follow1, hqp]
  | fileTrap hp hf => exact hstay (by simp [context.follow1, hother hf])
  | fileResult hp hf => exact hstay (by simp [context.follow1, hfile hf])
  | fileReturns hp hf => exact hstay (by simp [context.follow1, hfile hf])
  | @entry lab _ pass hm hpass =>
    have hnone : x.machine.kernel.currentPCB = some p → lab.2 = none := by
      intro hcur
      by_contra hne
      obtain ⟨y, hy⟩ := Option.ne_none_iff_exists'.mp hne
      exact hret ⟨hcur, lab.1, y, by rw [← hy]⟩
    refine ⟨evs', hr, hx.good.stopped_step hm hstop hnone, follow_append hfollow ?_⟩
    rw [hevs]
    exact passage_follow hx.good hm hpass hstop hnone

theorem Inside.run (h : Inside p c x evs) (hx : x.Ok L) (hr : Run (Step L) x tr x')
    (hret : ∀ mv ∈ tr, ¬ Returns p mv) :
    ∃ evs', context.Run L x.state evs' x'.state ∧ Inside p c x' (evs ++ evs') := by
  have hrule := hr.rule (I := fun tr x' => x'.Ok L ∧ ((∀ mv ∈ tr, ¬ Returns p mv) →
    ∃ evs', context.Run L x.state evs' x'.state ∧ Inside p c x' (evs ++ evs'))) ?_ ?_
  · exact hrule.2 hret
  · exact ⟨hx, fun _ => ⟨[], .nil, by rwa [List.append_nil]⟩⟩
  · rintro tr y l z _ ⟨hy, hin⟩ hs
    refine ⟨hy.step hs, fun hret => ?_⟩
    obtain ⟨evs1, hr1, hin1⟩ := hin fun mv hmv => hret mv (by simp [hmv])
    obtain ⟨evs2, hr2, hin2⟩ := Inside.step hin1 hy hs (hret _ (by simp))
    exact ⟨evs1 ++ evs2, hr1.append hr2, by rwa [← List.append_assoc]⟩

theorem run_nil (hr : context.Run L s evs s') (h : evs = []) : s' = s := by
  cases hr with
  | nil => rfl
  | snoc => simp at h

theorem run_uncons (hr : context.Run L s (ev :: evs) s') :
    ∃ s1, context.Step L s ev s1 ∧ context.Run L s1 evs s' := by
  generalize hl : ev :: evs = l at hr
  induction hr generalizing evs with
  | nil => cases hl
  | @snoc s1 s2 tr ev1 hr hs ih =>
    rcases tr with _ | ⟨ev2, tr⟩
    · obtain ⟨rfl, rfl⟩ := List.cons.inj hl
      obtain rfl := run_nil hr rfl
      exact ⟨s2, hs, .nil⟩
    · obtain ⟨rfl, rfl⟩ := List.cons.inj hl
      obtain ⟨s3, hs3, hr3⟩ := ih rfl
      exact ⟨s3, hs3, hr3.snoc hs⟩

/-- No code of the kernel runs before an entry from user mode. -/
theorem run_starts (hr : context.Run L s evs s') (hmode : ¬ context.SystemMode s.m)
    (hevs : evs.filter (fun ev => !isCode ev) = ev :: evs') : ∃ s1 rest, context.Step L s ev s1 ∧
      context.Run L s1 rest s' ∧ rest.filter (fun ev => !isCode ev) = evs' := by
  rcases evs with _ | ⟨ev1, rest⟩
  · cases hevs
  obtain ⟨s1, hs, hr1⟩ := run_uncons hr
  rcases hcode : isCode ev1 with _ | _
  · rw [List.filter_cons_of_pos (by simp [hcode]), List.cons.injEq] at hevs
    obtain ⟨rfl, hrest⟩ := hevs
    exact ⟨s1, rest, hs, hr1, hrest⟩
  · cases hs with
    | kernel hsys => exact absurd hsys hmode
    | _ => cases hcode

/-- And none runs after a return to user mode. -/
theorem run_ends (hr : context.Run L s evs s') (hmode : ¬ context.SystemMode s'.m)
    (hevs : evs.filter (fun ev => !isCode ev) = evs' ++ [ev]) : ∃ s1 rest,
      context.Run L s rest s1 ∧ rest.filter (fun ev => !isCode ev) = evs' ∧
        context.Step L s1 ev s' := by
  cases hr with
  | nil => simp at hevs
  | @snoc s1 _ rest ev1 hr1 hs =>
    rw [List.filter_append] at hevs
    rcases hcode : isCode ev1 with _ | _
    · rw [List.filter_cons_of_pos (by simp [hcode]), List.filter_nil] at hevs
      obtain ⟨hrest, hlast⟩ := List.append_inj' hevs rfl
      obtain rfl := List.cons.inj hlast |>.1
      exact ⟨s1, rest, hr1, hrest, hs⟩
    · cases hs with
      | kernel _ hsys => exact absurd hsys hmode
      | _ => cases hcode

theorem Ok.user_mode (h : x.Ok L) (hp : x.machine.kernel.currentPCB = some p)
    (hstop : x.machine.system.stopped p = none) (hfile : x.files p = false) :
    ¬ context.SystemMode x.state.m := by
  rw [h.mode hp, hfile]
  simpa [Machine.system] using hstop

/-- The frame of a trap in user mode is pushed and popped, and this is what was
stored in it. -/
structure Framed (L : context.Layout Pid) (p : Pid) (r : context.Stored) (t : context.Latch)
    (s s' : context.State Pid) : Prop where
  user : ¬ context.SystemMode s.m
  events : ∃ s1 evs s2, context.Step L s (.interrupt p t) s1 ∧ context.Run L s1 evs s2 ∧
    context.follow p true evs = some (0, r) ∧ context.Step L s2 (.intrreturn p) s'

/-- The trap of a call that returns at once. -/
theorem Ok.call_returns {e : Entry} {c' : Call} {n : Int} (h : x.Ok L) (hs : x.Step L act x')
    (hact : act.entry = some (e, some (c', n))) (he : e.event = .call c)
    (hp : x.machine.kernel.currentPCB = some p) (ht : act.events.head? = some (.interrupt p t)) :
    c' = c ∧ Framed L p ⟨some (BitVec.ofInt 32 n), mapped x.machine x'.machine p c⟩ t x.state
      x'.state := by
  have hx' := h.step hs
  obtain ⟨m, s, f⟩ := x'
  obtain ⟨hturn, evs, hr, hevs⟩ := hs
  cases hturn with
  | @entry lab _ pass hm hpass htimer =>
    obtain rfl := Option.some.inj hact
    obtain ⟨hnone, hcall⟩ := h.good.call_step hm he hp
    have hoff : x.files p = false := htimer.off hp (by simp [he])
    cases hpass with
    | @returns q _ _ t' _ he' hq =>
      obtain ⟨rfl, rfl⟩ := context.Event.interrupt.inj (Option.some.inj ht)
      obtain rfl := Event.call.inj (he'.symm.trans he)
      cases hcall with
      | returns hstop hcur =>
      have hafter : ¬ context.SystemMode s.m := hx'.user_mode (hx'.good.current.trans hcur)
        (by rw [hstop, update_self]) hoff
      obtain ⟨s1, rest, hin, hr1, hrest⟩ := run_starts hr (h.user_mode hp hnone hoff) hevs
      have hrest : rest.filter (fun ev => !isCode ev) = (mapped x.machine m q c').toList.map
          (.setPtsize q) ++ [.setResult q (BitVec.ofInt 32 n)] ++ [.intrreturn q] := by
        rw [List.append_assoc]
        exact hrest
      obtain ⟨s2, evs2, hr2, hevs2, hout⟩ := run_ends hr1 hafter hrest
      refine ⟨rfl, h.user_mode hp hnone hoff, s1, evs2, s2, hin, hr2, ?_, hout⟩
      unfold context.follow
      rw [follow_events, hevs2, List.foldlM_append, follow_mapped]
      simp [context.follow1]
    | wakes he' => cases he'.symm.trans he
  | _ => cases hact

/-- The trap of a call that goes to sleep. -/
theorem Ok.call_sleeps {e : Entry} (h : x.Ok L) (hs : x.Step L act x')
    (hact : act.entry = some (e, none)) (he : e.event = .call c)
    (hp : x.machine.kernel.currentPCB = some p) (ht : act.events.head? = some (.interrupt p t)) :
    (∀ m1 m2, mapped m1 m2 p c = none) ∧ ¬ context.SystemMode x.state.m ∧
      ∃ s1 evs, context.Step L x.state (.interrupt p t) s1 ∧
        context.Run L s1 evs x'.state ∧ Inside p c x' evs := by
  obtain ⟨m, s, f⟩ := x'
  obtain ⟨hturn, evs, hr, hevs⟩ := hs
  cases hturn with
  | @entry lab _ pass hm hpass htimer =>
    obtain rfl := Option.some.inj hact
    obtain ⟨hnone, hcall⟩ := h.good.call_step hm he hp
    have hoff : x.files p = false := htimer.off hp (by simp [he])
    cases hpass with
    | @sleeps q q' _ t' u _ _ hq hq' =>
      obtain ⟨rfl, rfl⟩ := context.Event.interrupt.inj (Option.some.inj ht)
      cases hcall with
      | sleeps hstop =>
      obtain ⟨s1, rest, hin, hr1, hrest⟩ := run_starts hr (h.user_mode hp hnone hoff) hevs
      refine ⟨mapped_of_sleeps h.good hm he, h.user_mode hp hnone hoff, s1, rest, hin, hr1,
        ⟨_, by rw [hstop, update_self]⟩, ?_⟩
      unfold context.follow sleepDepth
      rw [follow_events, hrest, hq']
      by_cases hqp : q' = q <;> simp [context.follow1, hqp]
    | turn he' => rcases he' with he' | he' <;> cases he'.symm.trans he
    | exit he' | fork he' | forkFails he' | first he' | firstFails he' | sleepsAgain he' =>
      cases he'.symm.trans he
  | _ => cases hact

/-- The return of a call in which the process slept. -/
theorem Inside.returns {e : Entry} {c' : Call} {n : Int} (h : Inside p c x evs) (hx : x.Ok L)
    (hs : x.Step L act x') (hact : act.entry = some (e, some (c', n)))
    (hp : x.machine.kernel.currentPCB = some p) : c' = c ∧ ∃ evs' s2,
      context.Run L x.state evs' s2 ∧
      context.follow p true (evs ++ evs') = some (0, ⟨some (BitVec.ofInt 32 n), none⟩) ∧
      context.Step L s2 (.intrreturn p) x'.state := by
  obtain ⟨⟨stop, hstop⟩, hfollow⟩ := h
  have hx' := hx.step hs
  obtain ⟨m, s, f⟩ := x'
  obtain ⟨hturn, evs1, hr, hevs⟩ := hs
  cases hturn with
  | @entry lab _ pass hm hpass htimer =>
    obtain rfl := Option.some.inj hact
    cases hpass with
    | returns he hq =>
      have hnone := (hx.good.call_step hm he hp).1
      cases hnone.symm.trans hstop
    | @wakes q _ _ _ he hq =>
      obtain rfl := Option.some.inj (hq.symm.trans hp)
      obtain ⟨c0, stop0, hstop0, hcall⟩ := hx.good.resume_step hm he hp
      obtain ⟨rfl, rfl⟩ := Prod.mk.inj (Option.some.inj (hstop.symm.trans hstop0))
      have hoff : x.files q = false := htimer.off hp (by simp [he])
      cases hcall with
      | returns hstop' hcur =>
      have hafter : ¬ context.SystemMode s.m := hx'.user_mode (hx'.good.current.trans hcur)
        (by rw [hstop', update_self]) hoff
      rw [← List.singleton_append] at hevs
      obtain ⟨s2, evs2, hr2, hevs2, hout⟩ := run_ends hr hafter hevs
      refine ⟨rfl, evs2, s2, hr2, follow_append hfollow ?_, hout⟩
      rw [hevs2]
      simp [context.follow1, sleepDepth, hp]
  | _ => cases hact

/-- A call of a process, from its trap to its return. -/
theorem Ok.call_framed {e : Entry} {c' : Call} {n : Int} (h : x0.Ok L)
    (hr : Run (Step L) x0 tr x1) (hs : x1.Step L act x2)
    (hact : act.entry = some (e, some (c', n))) (hp : x1.machine.kernel.currentPCB = some p)
    (hcall : ∃ mv, (tr ++ [(⟨x1, act, x2⟩ : Move _ _)]).head? = some mv ∧ MakesCall p c t mv)
    (hfirst : ∀ mv ∈ tr, ¬ Returns p mv) : c' = c ∧
      Framed L p ⟨some (BitVec.ofInt 32 n), mapped x1.machine x2.machine p c⟩ t x0.state
        x2.state := by
  obtain ⟨mv, hmv, hp1, ⟨e1, r, hlab, he⟩, ht⟩ := hcall
  rcases tr with _ | ⟨mv1, tr⟩
  · obtain rfl := hr.eq_of_nil rfl
    obtain rfl := Option.some.inj hmv
    obtain ⟨rfl, rfl⟩ := Prod.mk.inj (Option.some.inj (hlab.symm.trans hact))
    exact h.call_returns hs hact he hp ht
  · obtain rfl := Option.some.inj hmv
    obtain ⟨hpre, hs1, hr1⟩ := hr.uncons
    subst hpre
    obtain rfl : r = none := by
      by_contra hne
      obtain ⟨y, rfl⟩ := Option.ne_none_iff_exists'.mp hne
      exact hfirst mv1 List.mem_cons_self ⟨hp1, e1, y, hlab⟩
    obtain ⟨hmapped, huser, s1, evs, hin, hrun, hinside⟩ := h.call_sleeps hs1 hlab he hp1 ht
    have hok := h.step hs1
    obtain ⟨evs1, hrun1, hinside1⟩ :=
      Inside.run hinside hok hr1 fun mv hmv => hfirst mv (List.mem_cons_of_mem _ hmv)
    obtain ⟨hc, evs2, s2, hrun2, hfollow, hout⟩ := Inside.returns hinside1
      (hr1.invariant (fun _ _ _ hi hs => hi.step hs) hok) hs hact hp
    rw [hmapped]
    exact ⟨hc, huser, s1, _, s2, hin, (hrun.append hrun1).append hrun2, hfollow, hout⟩

end Computer

/-- A system call is to its caller what the call of a function is. Whatever
processes run, sleep, trap and end before it returns, the caller goes on in user
mode behind the trap, with the result in `r1` and with its registers and its
stack pointers as they were. Where the call maps a shared page, `ptsize` is the
new number of pages. -/
theorem system_call_returns {x0 x1 x2 : Computer} {tr : List (Move Computer Act)} {act : Act}
    {e : Entry} {c' : Call} {n : Int} (h : x0.Reachable L) (hr : Run (Computer.Step L) x0 tr x1)
    (hs : x1.Step L act x2) (hact : act.entry = some (e, some (c', n)))
    (hp : x1.machine.kernel.currentPCB = some p)
    (hcall : ∃ mv, (tr ++ [(⟨x1, act, x2⟩ : Move _ _)]).head? = some mv ∧
      Computer.MakesCall p c t mv)
    (hfirst : ∀ mv ∈ tr, ¬ Computer.Returns p mv) :
    c' = c ∧ x2.state.m.get 1 = BitVec.ofInt 32 n ∧
      (∀ i, i ≠ 0 → i ≠ 1 → x2.state.m.get i = x0.state.m.get i) ∧
      x2.state.m.cpu.f = x0.state.m.cpu.f ∧ x2.state.m.cpu.special .iar = t.iar ∧
      (∀ y ∈ [dlx.Special.status, .ptbase, .ptbits],
        x2.state.m.cpu.special y = x0.state.m.cpu.special y) ∧
      x2.state.m.cpu.special .ptsize =
        (mapped x1.machine x2.machine p c).getD (x0.state.m.cpu.special .ptsize) ∧
      ¬ context.SystemMode x2.state.m ∧
      x2.state.m.mem (L.pcb p) = x0.state.m.mem (L.pcb p) ∧
      x2.state.m.mem (L.pcb p + 4) = x0.state.m.mem (L.pcb p + 4) := by
  have hok := h.ok
  obtain ⟨sb, evs0, hsb, hrun0⟩ := hok.booted
  obtain ⟨hc, huser, s1, evs, s2, hin, hrun, hfollow, hout⟩ :=
    hok.call_framed hr hs hact hp hcall hfirst
  obtain ⟨hregs, hr1, hf, hiar, hspecial, hsize, hpcb, hstack⟩ :=
    context.trap_comes_back hsb hrun0 hin huser hrun hfollow hout
  refine ⟨hc, hr1, hregs, hf, hiar, hspecial, hsize, ?_, hpcb, hstack⟩
  unfold context.SystemMode
  rw [hspecial .status (by simp)]
  exact huser

/-- `sem_wait` sleeps until the other process signals, and returns 1. -/
theorem sem_wait_returns : ∃ (x0 x2 : Computer) (tr : List (Move Computer Act))
    (mv : Move Computer Act) (t : context.Latch), x0.Reachable physical.layout ∧
    Run (Computer.Step physical.layout) x0 tr x2 ∧ tr.head? = some mv ∧
    Computer.MakesCall 31 (.semWait 0) t mv ∧ x2.state.m.get 1 = 1 ∧
    x2.state.m.cpu.special .iar = t.iar ∧
    ∀ i, i ≠ 0 → i ≠ 1 → x2.state.m.get i = x0.state.m.get i := by
  obtain ⟨b, y0, tr, y, hstart, hr, hseen⟩ := physical.waits
  rw [List.map_append, List.map_cons, List.map_append] at hseen
  obtain ⟨tr1, x0, l, evs, x1, tr2, hr1, hs, hr2, _, hseen2, hcur, he, hres⟩ :=
    physical.seen_split hr hseen
  obtain ⟨tr3, x2, l2, evs2, x3, _, hr3, hs3, _, hseen3, _, hcur3, _, hres3⟩ :=
    physical.seen_split hr2 hseen2
  obtain ⟨e, r⟩ := l
  obtain ⟨e2, r2⟩ := l2
  dsimp only at he hres hres3
  subst hres hres3
  have hreach : x0.Reachable physical.layout := ⟨b, y0, tr1, hstart, hr1⟩
  have hfirst : ∀ mv ∈ (⟨x0, ⟨some (e, none), evs⟩, x1⟩ :: tr3 : List (Move _ _)),
      ¬ Computer.Returns 31 mv := by
    rintro mv hmv ⟨hp, e', v, hlab⟩
    rcases List.mem_cons.mp hmv with rfl | hmv
    · cases hlab
    · have hin : physical.seen mv ∈ physical.duringWait.map some := by
        rw [← hseen3]
        exact List.mem_map_of_mem hmv
      simp [physical.seen, hlab, hp, physical.duringWait] at hin
  obtain ⟨t, ht⟩ := hs.call_trap rfl he hcur
  have hcall : Computer.MakesCall 31 (.semWait 0) t ⟨x0, ⟨some (e, none), evs⟩, x1⟩ :=
    ⟨hcur, ⟨e, none, rfl, he⟩, ht⟩
  obtain ⟨_, h1, hregs, _, hiar, _⟩ := system_call_returns hreach (Run.cons hs hr3) hs3 rfl hcur3
    ⟨_, rfl, hcall⟩ hfirst
  exact ⟨x0, x3, _, _, t, hreach, (Run.cons hs hr3).snoc hs3, rfl, hcall, h1, hiar, hregs⟩

end dlxos
