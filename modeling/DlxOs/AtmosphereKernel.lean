-- The simulation of the atmosphere on the kernel. What `q5` does in every order
-- of its steps, it does in every run of the kernel, whatever else the kernel
-- has to do.
import DlxOs.AtmosphereLaws
import DlxOs.UserlandEnds
import DlxOs.UserlandExec

namespace dlxos.q5

open Function runs monitor

instance : Fintype Proc where
  elems := {.krypton, .producer_n, .producer_o, .reaction_1, .reaction_2, .reaction_3, .reaction_4}
  complete p := by cases p <;> decide

variable {N O : Nat} {T : Int} {s : State Proc L Stat Cond Sem} {p : Proc} {B : Binding Cond Sem}
  {w w' : World Proc L Stat} {tr : List (Move (World Proc L Stat) (Option Label))} {x : Pid}

/-! ## The semaphore -/

/-- What a process has asked of the semaphore. The six give one unit each at
their end. -/
def asked : ∀ p : Proc, L p → Int
  | .krypton, l => if l = KryptonLine.done then 1 else 0
  | .producer_n, l | .producer_o, l => if l.line = ProducerLine.done then -1 else 0
  | .reaction_1, l => if l.line = Reaction1Line.done then -1 else 0
  | .reaction_2, l => if l.line = Reaction2Line.done then -1 else 0
  | .reaction_3, l => if l.line = Reaction3Line.done then -1 else 0
  | .reaction_4, l => if l.line = Reaction4Line.done then -1 else 0

theorem producer_asks {add : Stat → Stat} {curr : ProducerLoc → Int} {ready : Cond} {total : Nat}
    {l l' : ProducerLoc} {stat stat' : Stat}
    (h : (producer add curr ready total l).next stat = some (l', stat')) :
    asked .producer_n l' = asked .producer_n l +
      (producer add curr ready total l).units .s_procs_completed := by
  rcases l with ⟨⟨_ | _ | _ | _ | _ | _ | _, i⟩, n, o⟩ <;> simp only [producer] at h ⊢
  · split at h <;> rename_i hc <;> cases h <;> simp [asked, Op.units, hc]
  iterate 2
    · cases h
      simp [asked, Op.units]
  · cases h
    simp only [asked]
    split <;> simp [Op.units]
  all_goals
    cases h
    try simp [asked, Op.units]

theorem line_ite {Line : Type} {c : Prop} [Decidable c] {l l' : Loc Line} {line : Line}
    (h : l.line ≠ line) (h' : l'.line ≠ line) : (if c then l else l').line ≠ line := by
  split
  · exact h
  · exact h'

/-- A process goes to its end by a signal, and signals at its end only. -/
theorem asked_next (p : Proc) (l : L p) (stat : Stat) (l' : L p) (stat' : Stat)
    (h : ((program N O T).op p l).next stat = some (l', stat')) :
    asked p l' = asked p l + ((program N O T).op p l).units .s_procs_completed := by
  cases p with
  | krypton =>
    rcases l with _ | _ <;> cases h
    rfl
  | producer_n | producer_o => exact producer_asks h
  | reaction_1 =>
    rcases l with ⟨_ | _, i⟩ <;> simp only [program, reaction_1] at h ⊢
    · split at h <;> rename_i hc <;> cases h <;> simp [asked, Op.units, hc]
    all_goals cases h
    all_goals simp [asked, Op.units, line_ite]
  | reaction_2 =>
    rcases l with ⟨_ | _, i⟩ <;> simp only [program, reaction_2] at h ⊢
    · split at h <;> rename_i hc <;> cases h <;> simp [asked, Op.units, hc]
    all_goals cases h
    all_goals simp [asked, Op.units, line_ite]
  | reaction_3 =>
    rcases l with ⟨_ | _, i⟩ <;> simp only [program, reaction_3] at h ⊢
    · split at h <;> rename_i hc <;> cases h <;> simp only [hc] <;> rfl
    all_goals cases h
    all_goals simp [asked, Op.units, line_ite]
  | reaction_4 =>
    rcases l with ⟨_ | _, i⟩ <;> simp only [program, reaction_4] at h ⊢
    · split at h <;> rename_i hc <;> cases h <;> simp only [hc] <;> rfl
    all_goals cases h
    all_goals simp [asked, Op.units, line_ite]

theorem asked_at_end (hp : p ≠ .krypton) {l : L p} (h : AtEnd p l) : asked p l = -1 := by
  cases p with
  | krypton => exact absurd rfl hp
  | _ => exact if_pos h

/-- The wait of `krypton` is its last operation. -/
theorem krypton_asleep (h : (program N O T).Reachable s) {w : Place Cond Sem} {l : L p}
    (hw : ∃ m, w = .sem m) (hpc : s.pc p = .asleep w l) : p = .krypton ∧ asked p l = 1 := by
  obtain ⟨m, rfl⟩ := hw
  obtain ⟨l0, v, v', hgoes⟩ := asleep_from h (by simp) p l hpc
  obtain rfl := waits_for_semaphore hgoes
  refine ⟨rfl, ?_⟩
  rcases l0 with _ | _ <;> cases hgoes
  rfl

/-- Six units are given at most, and five of them are owed. -/
theorem semaphore_count (h : (program N O T).Reachable s) :
    (s.shared.sems .s_procs_completed).count =
      -5 - ∑ p, s.got .s_procs_completed asked p ∧
      0 ≤ s.got .s_procs_completed asked .krypton ∧
      ∀ p, p ≠ .krypton → -1 ≤ s.got .s_procs_completed asked p := by
  have hlaw := semaphore_law asked asked_next h
  have hstart : ∑ p, asked p ((program N O T).start p) = 0 :=
    Finset.sum_eq_zero fun p _ => by cases p <;> rfl
  have hcount : (program N O T).count .s_procs_completed = -5 := rfl
  refine ⟨by omega, ?_, fun p hp => ?_⟩
  · unfold State.got
    split
    · rename_i hplace
      have hasleep := point_of_place hplace
      have hasked := (krypton_asleep h ⟨_, rfl⟩ hasleep).2
      rw [State.locs, hasked]
      decide
    · simp only [asked]
      split <;> decide
  · unfold State.got
    rw [if_neg fun hplace => hp (krypton_asleep h ⟨_, rfl⟩ (point_of_place hplace)).1]
    cases p with
    | krypton => exact absurd rfl hp
    | _ => simp only [asked]; split <;> decide

theorem sum_procs (f : Proc → Int) : ∑ p, f p = f .krypton + f .producer_n + f .producer_o +
    f .reaction_1 + f .reaction_2 + f .reaction_3 + f .reaction_4 := by
  have hunion : (Finset.univ : Finset Proc) =
    {.krypton, .producer_n, .producer_o, .reaction_1, .reaction_2, .reaction_3, .reaction_4} := rfl
  rw [hunion]
  simp [add_assoc]

theorem bounded (N O : Nat) (T : Int) : Bounded (program N O T) := by
  rintro s h ⟨⟩
  obtain ⟨hcount, hk, hothers⟩ := semaphore_count h
  rw [sum_procs] at hcount
  have h1 := hothers .producer_n nofun
  have h2 := hothers .producer_o nofun
  have h3 := hothers .reaction_1 nofun
  have h4 := hothers .reaction_2 nofun
  have h5 := hothers .reaction_3 nofun
  have h6 := hothers .reaction_4 nofun
  omega

/-- `krypton` does not wait in vain: where no process can run, it has come to
its end as well. -/
theorem all_finished (h : (program N O T).Reachable s) (hs : (program N O T).Stuck s) (p : Proc) :
    (program N O T).Finished s p := by
  by_cases hp : p = .krypton
  · subst hp
    refine ((h.ok.stuck hs).2 .krypton).resolve_right ?_
    rintro ⟨w, l, hpc, hw⟩
    obtain ⟨l0, v, v', hgoes⟩ := asleep_from h hw _ l hpc
    obtain ⟨m, rfl⟩ : ∃ m, w = .sem m := by
      rcases l0 with _ | _ <;> cases hgoes
      exact ⟨_, rfl⟩
    -- all six have given their unit, and it still waits
    have hgot : ∀ q, q ≠ .krypton → s.got .s_procs_completed asked q = -1 := by
      intro q hq
      have hend := Finished.atEnd (stuck_finished h hs hq)
      obtain ⟨l', hl', _⟩ := stuck_finished h hs hq
      unfold State.got
      rw [hl', Point.place_ready, if_neg (by simp), asked_at_end hq hend, sub_zero]
    have hk : s.got .s_procs_completed asked .krypton = 0 := by
      have hasked := (krypton_asleep h ⟨m, rfl⟩ hpc).2
      have hloc : s.locs .krypton = l := locs_asleep hpc
      unfold State.got
      rw [hpc, hloc, hasked]
      rfl
    obtain ⟨hcount, _, _⟩ := semaphore_count h
    rw [sum_procs, hk, hgot .producer_n nofun, hgot .producer_o nofun, hgot .reaction_1 nofun,
      hgot .reaction_2 nofun, hgot .reaction_3 nofun, hgot .reaction_4 nofun] at hcount
    have hneg : (s.shared.sems .s_procs_completed).count ≤ 0 := asleep_count h hpc
    omega
  · exact stuck_finished h hs hp

/-! ## The kernel -/

/-- In every run of the kernel no counter of the page becomes negative, and no
atom is lost while the lock is free. -/
theorem atoms_on_the_kernel (N O : Nat) (T : Int) (h0 : w.Starts (program N O T) B)
    (hr : Run (World.Step (program N O T) B) w tr w') :
    NonNeg w'.mem ∧ ((w'.machine.system.locks B.lock).pid = -1 → Conserved w'.mem) := by
  obtain ⟨_, s, hs, hw⟩ := h0.run (bounded N O T) hr
  have hmem : s.shared.mem = w'.mem := congrArg Shared.mem hw.shared
  rw [← hmem]
  refine ⟨nonneg hs, fun hfree => conserved hs fun p hm => ?_⟩
  have hout := hw.outside hs.ok hfree (hm.ready hs)
  cases hm.inside.1.symm.trans hout

/-- While only the simulation runs, the kernel never stops it: the one entry that
ends it is the exit of the last process, once all reactions are done. -/
theorem simulation_on_the_kernel (N O : Nat) (T : Int) (h0 : w.Starts (program N O T) B)
    (hr : Run (World.Step (program N O T) B) w tr w') (ha : w'.Alone (program N O T)) {e : Entry}
    (hready : w'.machine.Ready e) (he : w'.Enters (program N O T) B e.event) {h : Halt}
    (hend : w'.machine.step e = .error h) :
    e.event = .exit ∧ h = .exitsim "No runnable processes - exiting!" ∧
      (∀ p, (program N O T).op p (w'.loc p) = .done) ∧
      Outcome N O (estimate N O T) w'.mem := by
  have hlives := h0.lives (bounded N O T) hr
  obtain ⟨hok, s, hs, hw⟩ := h0.run (bounded N O T) hr
  have hmem : s.shared.mem = w'.mem := congrArg Shared.mem hw.shared
  obtain ⟨hexit, rfl, hfin⟩ := hw.finished (fun s hs hstuck => all_finished hs hstuck) hok hs hlives
    ha hready he hend
  refine ⟨hexit, rfl, fun p => ?_, ?_⟩
  · obtain ⟨l, hl, hop⟩ := hfin p
    rw [← hw.locs, locs_ready hl]
    exact hop
  · rw [← hmem]
    exact outcome hs fun p _ => hfin p

/-! ## A run -/

deriving instance DecidableEq for Loc, ProducerLoc

instance (p : Proc) : DecidableEq (L p) :=
  match p with
  | .krypton => inferInstanceAs (DecidableEq KryptonLine)
  | .producer_n | .producer_o => inferInstanceAs (DecidableEq ProducerLoc)
  | .reaction_1 => inferInstanceAs (DecidableEq (Loc Reaction1Line))
  | .reaction_2 => inferInstanceAs (DecidableEq (Loc Reaction2Line))
  | .reaction_3 => inferInstanceAs (DecidableEq (Loc Reaction3Line))
  | .reaction_4 => inferInstanceAs (DecidableEq (Loc Reaction4Line))

/-- The handles that `krypton` gets on a kernel without other objects. -/
def handles : Binding Cond Sem where
  lock := 0
  cond
    | .c_N2_ready => 0
    | .c_O2_ready => 1
    | .c_NO2_ready => 2
    | .c_O3_ready => 3
  sem _ := 0
  cond_inj := by rintro (_ | _ | _ | _) (_ | _ | _ | _) h <;> first | rfl | cases h
  sem_inj := by rintro ⟨⟩ ⟨⟩ _; rfl

/-- `krypton` makes its objects. -/
def setup : List Event := [.fork true true, .call (.semCreate (-(6 - 1))), .call .lockCreate,
  .call (.condCreate 0), .call (.condCreate 0), .call (.condCreate 0), .call (.condCreate 0)]

/-- `krypton` makes six processes and waits for them. Each of them runs to its
end before the next one starts. -/
def order : List (Turn Proc) :=
  List.replicate 6 .fork ++ [.start .krypton, .go .krypton] ++
    [.start .producer_n] ++ List.replicate 13 (.go .producer_n) ++
    [.start .reaction_1] ++ List.replicate 8 (.go .reaction_1) ++
    [.start .reaction_3, .go .reaction_3, .go .reaction_3] ++
    [.start .producer_o, .go .producer_o, .go .producer_o] ++
    [.start .reaction_4, .go .reaction_4, .go .reaction_4] ++
    [.start .reaction_2, .go .reaction_2, .go .reaction_2, .resume]

instance : Fintype Cond where
  elems := {.c_N2_ready, .c_O2_ready, .c_NO2_ready, .c_O3_ready}
  complete c := by cases c <;> decide

instance : Fintype Sem where
  elems := {.s_procs_completed}
  complete m := by cases m; decide

/-- Two atoms of N: all but `krypton` have ended. A process has called the
kernel before, and has read the page. -/
theorem exists_kernel_run : ∃ (w : World Proc L Stat) (tr : _) (w' : World Proc L Stat),
    w.Starts (program 2 0 100) handles ∧
    Run (World.Step (program 2 0 100) handles) w tr w' ∧
    (w'.machine.queue .runQueue = [31] ∧ w'.machine.queue .waitQueue = [] ∧
      w'.machine.system.stopped 31 = none ∧ (w'.machine.system.locks 0).pid = -1 ∧
      w'.pid .krypton = some 31) ∧
    (∀ p, (program 2 0 100).op p (w'.loc p) = .done) ∧
    (w'.mem.num_n2 = 1 ∧ w'.mem.produced_n = 2) ∧
    (∃ mv ∈ tr, ∃ e, mv.pre.machine.system.current = some 30 ∧
      mv.pre.pid .producer_n = some 30 ∧ mv.label = some (e, some (.lockAcquire 0, 1))) ∧
    ∃ mv ∈ tr, mv.label = none ∧ mv.post.pid = mv.pre.pid := by
  obtain ⟨w, tr, w', h0, hr, hq⟩ := exists_starts_run (g := program 2 0 100) (B := handles)
    setup order (fun ms u => decide ((u.system.queue .runQueue = [31] ∧
        u.system.queue .waitQueue = [] ∧ u.system.stopped 31 = none ∧
        (u.system.locks 0).pid = -1 ∧ u.pid .krypton = some 31) ∧
      (∀ p, ((program 2 0 100).op p (u.loc p) matches .done) = true) ∧
      (u.mem.num_n2 = 1 ∧ u.mem.produced_n = 2) ∧
      (∃ mv ∈ ms, mv.pre.system.current = some 30 ∧ mv.pre.pid .producer_n = some 30 ∧
        mv.label = some (.call (.lockAcquire 0), some (.lockAcquire 0, 1))) ∧
      ∃ mv ∈ ms, mv.label = none ∧ mv.post.pid = mv.pre.pid)) (by decide +kernel)
  obtain ⟨hlast, hd, hmem, ⟨_, hmv1, h1, h2, h3⟩, _, hmv2, h4, h5⟩ := of_decide_eq_true hq
  obtain ⟨mv1, hm1, rfl⟩ := List.mem_map.mp hmv1
  obtain ⟨mv2, hm2, rfl⟩ := List.mem_map.mp hmv2
  refine ⟨w, tr, w', h0, hr, hlast, fun p => ?_, hmem, ⟨mv1, hm1, ?_⟩, mv2, hm2, ?_, h5⟩
  · have hd := hd p
    split at hd
    · assumption
    · cases hd
  · obtain ⟨⟨e, r⟩, hlabel, he⟩ := Option.map_eq_some_iff.mp h3
    obtain ⟨_, rfl⟩ := Prod.mk.inj he
    exact ⟨e, h1, h2, hlabel⟩
  · exact Option.map_eq_none_iff.mp h4

/-- The atoms of the run. -/
theorem atoms_of_a_kernel_run : ∃ w' : World Proc L Stat, w'.mem.produced_n = 2 ∧
    Conserved w'.mem := by
  obtain ⟨w, tr, w', h0, hr, ⟨_, _, _, hfree, _⟩, _, ⟨_, hmem⟩, _⟩ := exists_kernel_run
  exact ⟨w', hmem, (atoms_on_the_kernel 2 0 100 h0 hr).2 hfree⟩

/-- The last exit. -/
theorem end_of_a_kernel_run : ∃ w' : World Proc L Stat,
    w'.machine.step ⟨.exit, 0⟩ = .error (.exitsim "No runnable processes - exiting!") ∧
    Outcome 2 0 (estimate 2 0 100) w'.mem := by
  obtain ⟨w, tr, w', h0, hr, ⟨hq, hwait, hst, _, hk⟩, hd, _⟩ := exists_kernel_run
  obtain ⟨hok, _⟩ := h0.run (bounded 2 0 100) hr
  obtain ⟨halone, hready, henters, hend⟩ := hok.last_exit hq hwait hst hk hd
  exact ⟨w', hend, (simulation_on_the_kernel 2 0 100 h0 hr halone hready henters hend).2.2.2⟩

end dlxos.q5
