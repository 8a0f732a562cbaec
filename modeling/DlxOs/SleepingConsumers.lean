-- The consumers of `q4` that find the buffer empty. No process signals
-- `c_fullslots`, so they sleep for good, and only the runs without them come to
-- their end.
import DlxOs.CondBuffer

namespace dlxos.q4

open Function monitor runs

variable {N : Nat} {s t : State (Proc N) L Buffer Cond Sem} {p : Proc N} {i : Fin N}

/-- A consumer is about to test an empty buffer. -/
def FindsEmpty (s : State (Proc N) L Buffer Cond Sem) (p : Proc N) : Prop :=
  ∃ i k, p = .consumer i ∧ s.pc (.consumer i) = .ready ⟨.test, k⟩ ∧ s.shared.mem.isEmpty = true

/-- The producers and the consumers have ended. -/
def PairsFinished (s : State (Proc N) L Buffer Cond Sem) : Prop :=
  ∀ p, p ≠ .makeprocs → (program N).Finished s p

/-! ## Consumers that find the buffer empty -/

/-- The consumer has found the buffer empty. -/
def Doomed (s : State (Proc N) L Buffer Cond Sem) (i : Fin N) : Prop :=
  (∃ k, s.pc (.consumer i) = .ready ⟨.wait, k⟩) ∨
    ∃ l, s.pc (.consumer i) = .asleep (.cond .c_fullslots) l

theorem FindsEmpty.doomed (h : FindsEmpty s p) (hs : (program N).Step s p t) :
    ∃ i, Doomed t i := by
  obtain ⟨i, k, rfl, hpc, hempty⟩ := h
  refine ⟨i, .inl ⟨k, ?_⟩⟩
  rcases step_cases hs with ⟨e, _, he, rfl⟩ | ⟨hw, _⟩
  · rw [locs_ready hpc] at he
    cases he
    simp [hempty]
  · cases hpc.symm.trans hw

theorem Doomed.step (h : Doomed s i) (hr : (program N).Reachable s)
    (hs : (program N).Step s p t) : Doomed t i := by
  rcases h with ⟨k, hpc⟩ | ⟨l, hpc⟩
  · by_cases hp : p = .consumer i
    · subst hp
      refine .inr ⟨⟨.remove, k⟩, ?_⟩
      rcases step_cases hs with ⟨e, _, he, rfl⟩ | ⟨hw, _⟩
      · rw [locs_ready hpc] at he
        have hgoes : (Op.wait Cond.c_fullslots _).Goes s.shared.mem e.point _ := effect_goes he
        rw [State.after_self]
        generalize e.point = x, e.shared.mem = cb at hgoes
        cases hgoes
        rfl
      · cases hpc.symm.trans hw
    · refine .inl ⟨k, ?_⟩
      rw [pc_of_ne hr hs (Ne.symm hp) (by rw [hpc]; rfl), hpc]
  · exact .inr ⟨l, sleeps_on hr hs (fun p l => never_signals) hpc⟩

theorem Doomed.run (h : Doomed s i) (hr : (program N).Reachable s)
    {tr : List (Move (State (Proc N) L Buffer Cond Sem) (Proc N))}
    (hrun : Run (program N).Step s tr t) : (program N).Reachable t ∧ Doomed t i :=
  hrun.invariant (I := fun t => (program N).Reachable t ∧ Doomed t i)
    (fun _ _ _ hI hs => ⟨hI.1.step hs, hI.2.step hI.1 hs⟩) ⟨hr, h⟩

/-- Where no process can run, such a consumer sleeps. -/
theorem Doomed.asleep (h : Doomed s i) (hr : (program N).Reachable s)
    (hs : (program N).Stuck s) : ∃ l, s.pc (.consumer i) = .asleep (.cond .c_fullslots) l := by
  rcases h with ⟨k, hpc⟩ | hasleep
  · rcases (hr.ok.stuck hs).2 (.consumer i) with ⟨l, hl, hdone⟩ | ⟨w, l, hl, _⟩
    · cases hpc.symm.trans hl
      cases hdone
    · cases hpc.symm.trans hl
  · exact hasleep

/-! ## Consumers that do not -/

/-- No consumer waits for a character. -/
def Awake (s : State (Proc N) L Buffer Cond Sem) : Prop :=
  ∀ i : Fin N, (s.locs (.consumer i)).line ≠ ConsumerLine.wait ∧
    ∀ c, (s.pc (.consumer i)).place ≠ some (.cond c)

theorem consumer_awake {l : Loc ConsumerLine} {x : Point (Loc ConsumerLine) Cond Sem}
    {cb cb' : Buffer} (h : (consumer l).Goes cb x cb') (hl : l.line ≠ .wait)
    (htest : l.line = .test → cb.isEmpty = false) :
    x.loc.line ≠ .wait ∧ ∀ c, x.place ≠ some (.cond c) := by
  rcases l with ⟨_ | _ | _ | _ | _ | _ | _, k⟩ <;> simp only [consumer] at h
  · split at h <;> cases h <;> simp
  · cases h
    simp [htest rfl]
  · exact absurd rfl hl
  iterate 3
    · cases h
      simp
  · cases h

theorem Awake.step (h : Awake s) (hs : (program N).Step s p t) (hp : ¬ FindsEmpty s p) :
    Awake t := by
  intro i
  by_cases hpi : p = .consumer i
  · subst hpi
    rcases step_cases hs with ⟨e, hpc, he, rfl⟩ | ⟨hpc, rfl⟩
    · rw [locs_after, update_self, State.after_self]
      refine consumer_awake (effect_goes he) (h i).1 fun hline => ?_
      rw [Bool.eq_false_iff]
      intro hempty
      refine hp ⟨i, (s.locs (.consumer i)).out_curr_idx, rfl, ?_, hempty⟩
      rw [hpc, ← hline]
      rfl
    · rw [locs_after, update_self, State.after_self, loc_take]
      refine ⟨(h i).1, fun c => ?_⟩
      simp only [Shared.take]
      split <;> simp
  · rcases step_cases hs with ⟨e, _, _, rfl⟩ | ⟨_, rfl⟩
    all_goals
      rw [locs_after, update_of_ne (Ne.symm hpi), s.after_of_ne _ (Ne.symm hpi)]
      refine ⟨(h i).1, ?_⟩
      split
      · simp
      · exact (h i).2

/-- Either all consumers are awake, or one has found the buffer empty. -/
theorem awake_or_doomed {tr : List (Move (State (Proc N) L Buffer Cond Sem) (Proc N))}
    (hr : Run (program N).Step (program N).init tr s) :
    ((∀ mv ∈ tr, ¬ FindsEmpty mv.pre mv.label) → Awake s) ∧
      ((∃ mv ∈ tr, FindsEmpty mv.pre mv.label) → ∃ i, Doomed s i) := by
  refine (hr.rule (I := fun tr s => (program N).Reachable s ∧
    ((∀ mv ∈ tr, ¬ FindsEmpty mv.pre mv.label) → Awake s) ∧
      ((∃ mv ∈ tr, FindsEmpty mv.pre mv.label) → ∃ i, Doomed s i)) ?_ ?_).2
  · refine ⟨.init, fun _ i => ?_, ?_⟩
    · exact ⟨nofun, nofun⟩
    · rintro ⟨mv, hmv, _⟩
      cases hmv
  · rintro tr s p t hrun ⟨hreach, hawake, hdoomed⟩ hs
    refine ⟨hreach.step hs, fun h => ?_, ?_⟩
    · exact (hawake fun mv hmv => h mv (by simp [hmv])).step hs (h ⟨s, p, t⟩ (by simp))
    · rintro ⟨mv, hmv, hempty⟩
      rcases List.mem_append.mp hmv with hmv | hmv
      · obtain ⟨i, hi⟩ := hdoomed ⟨mv, hmv, hempty⟩
        exact ⟨i, hi.step hreach hs⟩
      · obtain rfl := List.mem_singleton.mp hmv
        exact hempty.doomed hs

/-! ## The end of a run -/

/-- A consumer that has ended has its ten characters. -/
def EndsWithTen : ∀ p : Proc N, L p → Prop
  | .makeprocs, _ | .producer _, _ => True
  | .consumer _, l => l.line = ConsumerLine.done → ITEM_SIZE ≤ l.out_curr_idx

theorem ends_with_ten (hr : (program N).Reachable s) (p : Proc N) : EndsWithTen p (s.locs p) := by
  refine loc_rule (g := program N) (S := EndsWithTen) ?_ ?_ hr p
  · rintro (_ | i | i)
    · trivial
    · trivial
    · simp [EndsWithTen, program]
  · rintro (_ | i | i) l cb l' cb' _ hn
    · trivial
    · trivial
    · rcases l with ⟨_ | _ | _ | _ | _ | _ | _, k⟩ <;> simp only [program, consumer] at hn
      · split at hn <;> cases hn
        · simp [EndsWithTen]
        · simp only [EndsWithTen]
          omega
      · cases hn
        simp only [EndsWithTen]
        split <;> simp
      iterate 4
        · cases hn
          simp [EndsWithTen]
      · cases hn

/-- A consumer sleeps on `c_fullslots`, a producer on `c_emptyslots`. -/
theorem sleeps_at (hr : (program N).Reachable s) {w : Place Cond Sem} {l : L p}
    (hpc : s.pc p = .asleep w l) (hw : w ≠ .lock) : match p, l with
      | .makeprocs, _ => True
      | .producer _, l => l.line = .insert
      | .consumer _, _ => w = .cond .c_fullslots := by
  obtain ⟨l0, cb, cb', hgoes⟩ := asleep_from hr hw p l hpc
  rcases p with _ | i | i
  · trivial
  · rcases l0 with ⟨_ | _ | _ | _ | _ | _, k⟩ <;> simp only [program, producer] at hgoes
    · split at hgoes <;> cases hgoes
      exact absurd rfl hw
    all_goals
      cases hgoes
    rfl
  · rcases l0 with ⟨_ | _ | _ | _ | _ | _ | _, k⟩ <;> simp only [program, consumer] at hgoes
    · split at hgoes <;> cases hgoes
      exact absurd rfl hw
    all_goals
      cases hgoes
    rfl

/-- Where no process can run and all consumers are awake, they have ended. -/
theorem Awake.consumer_done (h : Awake s) (hr : (program N).Reachable s)
    (hs : (program N).Stuck s) (i : Fin N) : (program N).Finished s (.consumer i) := by
  rcases (hr.ok.stuck hs).2 (.consumer i) with hfin | ⟨w, l, hpc, hw⟩
  · exact hfin
  · obtain rfl : w = .cond .c_fullslots := sleeps_at hr hpc hw
    exact absurd (by rw [hpc]; rfl) ((h i).2 .c_fullslots)

/-- All characters are removed then, so all of them are inserted. -/
theorem Awake.finished (h : Awake s) (hr : (program N).Reachable s)
    (hs : (program N).Stuck s) : PairsFinished s := by
  have hcounts := (accounts N).counts hr
  have horder : s.shared.mem.tail ≤ s.shared.mem.head :=
    ((tests N).outline.holds (fun s => (accounts N).counts) hr .makeprocs).1
  have hhead : (s.shared.mem.head : Int) = ∑ p, made p (s.locs p) := hcounts.head
  have htail : (s.shared.mem.tail : Int) = ∑ p, took p (s.locs p) := hcounts.tail
  have hmost : ∀ p, made p (s.locs p) + (if does p (s.locs p) = some .insert then 1 else 0) ≤
      share p := fun p => (accounts N).most p _ (hcounts.sane p)
  have hall : (ITEM_SIZE * N : Int) ≤ ∑ p, took p (s.locs p) := by
    have hten : ∀ i ∈ Finset.univ, (ITEM_SIZE : Int) ≤
        took (.consumer i) (s.locs (.consumer i)) := by
      intro i _
      obtain ⟨l, hpc, hdone⟩ := h.consumer_done hr hs i
      have hline : (s.locs (.consumer i)).line = ConsumerLine.done := by
        rw [locs_ready hpc]
        rcases l with ⟨_ | _ | _ | _ | _ | _ | _, k⟩ <;> simp only [program, consumer] at hdone
        · split at hdone <;> cases hdone
        all_goals first | rfl | cases hdone
      have hidx := ends_with_ten hr (.consumer i) hline
      simp only [took, hline]
      simpa using hidx
    have hsum := Finset.card_nsmul_le_sum _ _ _ hten
    rw [Finset.card_univ, Fintype.card_fin, nsmul_eq_mul, mul_comm] at hsum
    rw [sum_proc]
    simpa [took] using hsum
  rintro (_ | i | i) hp
  · exact absurd rfl hp
  · rcases (hr.ok.stuck hs).2 (.producer i) with hfin | ⟨w, l, hpc, hw⟩
    · exact hfin
    · -- a producer that sleeps has a character left
      have hline : l.line = ProducerLine.insert := sleeps_at hr hpc hw
      have hlocs : s.locs (.producer i) = l := by rw [State.locs, hpc, Point.loc_asleep]
      have hlast := hmost (.producer i)
      rw [hlocs, show does (.producer i) l = some .insert by simp [does, hline],
      if_pos rfl] at hlast
      have hlt : ∑ p, made p (s.locs p) < ∑ p : Proc N, share p := by
        refine Finset.sum_lt_sum (fun p _ => ?_) ⟨.producer i, Finset.mem_univ _, ?_⟩
        · have := hmost p
          split at this <;> omega
        · rw [hlocs]
          omega
      rw [sum_share] at hlt
      omega
  · exact h.consumer_done hr hs i

/-! ## A run with a consumer that sleeps -/

/-- How far a line is from the end of its program. -/
def rank : ∀ p : Proc N, L p → Nat
  | .makeprocs, (l : ParentLine) => if l = .wait then 1 else 0
  | .producer _, l => (ITEM_SIZE - l.out_curr_idx) * 7 + match l.line with
    | .loop => if l.out_curr_idx < ITEM_SIZE then 7 else 1
    | .test => 6
    | .wait => 5
    | .insert => 4
    | .release => 2
    | .done => 0
  | .consumer _, l => (ITEM_SIZE - l.out_curr_idx) * 7 + match l.line with
    | .loop => if l.out_curr_idx < ITEM_SIZE then 7 else 1
    | .test => 6
    | .wait => 5
    | .remove => 4
    | .signal => 3
    | .release => 2
    | .done => 0

theorem rank_next (p : Proc N) (l : L p) (cb : Buffer) (l' : L p) (cb' : Buffer)
    (hn : ((program N).op p l).next cb = some (l', cb')) : rank p l' < rank p l := by
  rcases p with _ | i | i
  · cases l <;> cases hn
    simp [rank]
  · rcases l with ⟨_ | _ | _ | _ | _ | _, k⟩ <;> simp only [program, producer] at hn
    · split at hn <;> cases hn <;> simp [rank, *]
    · cases hn
      by_cases hfull : cb.full = true <;> simp [rank, hfull]
    · cases hn
      simp [rank]
    · cases hn
      simp [rank]
    · cases hn
      simp only [rank]
      split <;> omega
    · cases hn
  · rcases l with ⟨_ | _ | _ | _ | _ | _ | _, k⟩ <;> simp only [program, consumer] at hn
    · split at hn <;> cases hn <;> simp [rank, *]
    · cases hn
      by_cases hempty : cb.isEmpty = true <;> simp [rank, hempty]
    · cases hn
      simp [rank]
    · cases hn
      simp [rank]
    · cases hn
      simp [rank]
    · cases hn
      simp only [rank]
      split <;> omega
    · cases hn

/-- A consumer that runs first goes to sleep. -/
theorem consumer_sleeps (N : Nat) (i : Fin N) :
    ∃ s, (program N).Reachable s ∧ s.shared = { (program N).init.shared with
        conds := update (program N).init.shared.conds .c_fullslots [.consumer i] } ∧
      s.pc (.consumer i) = .asleep (.cond .c_fullslots) ⟨.remove, 0⟩ ∧
      ∀ q, q ≠ .consumer i → s.pc q = .ready ((program N).start q) := by
  have hrun : (program N).alone (.consumer i) 3
      ((program N).init.pc (.consumer i), (program N).init.shared) =
        some (.asleep (.cond .c_fullslots) ⟨.remove, 0⟩, { (program N).init.shared with
          conds := update (program N).init.shared.conds .c_fullslots [.consumer i] }) := by
    simp [Program.alone, Program.init, program, consumer, Shared.effect, Shared.take,
      fifo.Lock.apply, Shared.handed, ITEM_SIZE, Buffer.empty, Buffer.isEmpty]
  obtain ⟨s, hr, hpc, hshared, hother⟩ := Program.Reachable.init.alone rfl hrun
  exact ⟨s, hr, hshared, hpc, hother⟩

/-- It sleeps when all others have come to their end. -/
theorem exists_sleeper (i : Fin N) : ∃ s, (program N).Reachable s ∧ (program N).Stuck s ∧
    ∃ l, s.pc (.consumer i) = .asleep (.cond .c_fullslots) l := by
  obtain ⟨s, hr, _, hpc, _⟩ := consumer_sleeps N i
  obtain ⟨tr, t, hrun, hstuck⟩ := exists_stuck (g := program N) rank_next s
  have hdoomed : Doomed s i := .inr ⟨_, hpc⟩
  obtain ⟨ht, hdoomed⟩ := hdoomed.run hr hrun
  exact ⟨t, ht, hstuck, hdoomed.asleep ht hstuck⟩

/-- Where no process can run, the pairs have ended exactly if no consumer has
found the buffer empty, and there is always a run in which one has. -/
theorem never_stuck_iff (N : Nat) :
    (∀ tr s, Run (program N).Step (program N).init tr s → (program N).Stuck s →
      (PairsFinished s ↔ ∀ mv ∈ tr, ¬ FindsEmpty mv.pre mv.label)) ∧
    (1 ≤ N → ∃ s, (program N).Reachable s ∧ (program N).Stuck s ∧ ¬ PairsFinished s) := by
  have hasleep : ∀ {s : State (Proc N) L Buffer Cond Sem} {i l},
      s.pc (.consumer i) = .asleep (.cond .c_fullslots) l → ¬ PairsFinished s := by
    intro s i l hpc hfin
    obtain ⟨l', hready, _⟩ := hfin (.consumer i) (by simp)
    cases hpc.symm.trans hready
  constructor
  · intro tr s hrun hstuck
    have hr : (program N).Reachable s := ⟨tr, hrun⟩
    obtain ⟨hawake, hdoomed⟩ := awake_or_doomed hrun
    constructor
    · intro hfin
      by_contra hempty
      obtain ⟨i, hi⟩ := hdoomed (by simpa using hempty)
      obtain ⟨l, hpc⟩ := hi.asleep hr hstuck
      exact hasleep hpc hfin
    · exact fun hnone => (hawake hnone).finished hr hstuck
  · intro hN
    obtain ⟨s, hr, hstuck, l, hpc⟩ := exists_sleeper (N := N) ⟨0, hN⟩
    exact ⟨s, hr, hstuck, hasleep hpc⟩

/-- A single pair can get stuck. -/
theorem one_pair_gets_stuck : ∃ s, (program 1).Reachable s ∧ (program 1).Stuck s ∧
    ¬ PairsFinished s :=
  (never_stuck_iff 1).2 le_rfl

/-- The producer inserts its characters while the consumer sleeps. -/
theorem producer_runs (n : Nat) (hn : n ≤ ITEM_SIZE) : ∃ s, (program 1).Reachable s ∧
    s.pc (.producer 0) = .ready ⟨.loop, n⟩ ∧ s.pc .makeprocs = .ready .wait ∧
    s.pc (.consumer 0) = .asleep (.cond .c_fullslots) ⟨.remove, 0⟩ ∧ Free n 0 s.shared ∧
    s.shared.sems .s_procs_completed = ⟨-1, []⟩ := by
  induction n with
  | zero =>
    obtain ⟨s, hr, hshared, hpc, hother⟩ := consumer_sleeps 1 0
    refine ⟨s, hr, hother _ (by simp), hother _ (by simp), hpc, ?_⟩
    rw [hshared]
    exact ⟨⟨rfl, rfl, rfl⟩, rfl⟩
  | succ n ih =>
    obtain ⟨s, hr, hpc, hparent, hcons, hfree, hsem⟩ := ih (by omega)
    have hrun := produce (N := 1) (i := 0) (k := n) (by omega) hfree
      (by simp only [ITEM_SIZE, BUFFER_SIZE] at hn ⊢; omega)
    obtain ⟨t, ht, hpc, hshared, hother⟩ := hr.alone hpc hrun
    refine ⟨t, ht, hpc, ?_, ?_, ?_⟩
    · rw [hother _ (by simp), hparent]
    · rw [hother _ (by simp), hcons]
    · rw [hshared]
      exact ⟨hfree.insert _, hsem⟩

/-- The consumer of a single pair sleeps on `c_fullslots` by a full buffer, and
all others have ended or sleep. -/
theorem sleeper_by_a_full_buffer : FitsTable 1 ∧ ∃ s, (program 1).Reachable s ∧
    (program 1).Stuck s ∧
    (∃ l, s.pc (.consumer 0) = .asleep (.cond .c_fullslots) l) ∧
    s.shared.mem.tail < s.shared.mem.head ∧
    ∀ p, p ≠ .consumer 0 → (program 1).Finished s p ∨ ∃ w l, s.pc p = .asleep w l := by
  obtain ⟨s, hr, hprod, hparent, hcons, hfree, hsem⟩ := producer_runs 10 le_rfl
  -- the producer signals that it has ended
  have hrun1 : (program 1).alone (.producer 0) 1 (.ready ⟨.loop, 10⟩, s.shared) =
      some (.ready ⟨.done, 10⟩, { s.shared with
        sems := update s.shared.sems .s_procs_completed ⟨0, []⟩ }) := by
    simp [Program.alone, program, producer, ITEM_SIZE, Shared.effect, hsem, fifo.Sem.apply,
      fifo.Sem.grants]
  obtain ⟨s1, hr1, hprod1, hsh1, hother1⟩ := hr.alone hprod hrun1
  -- and `makeprocs` waits for the consumer
  have hrun2 : (program 1).alone .makeprocs 1 (.ready .wait, s1.shared) =
      some (.asleep (.sem .s_procs_completed) .done, { s1.shared with
        sems := update s1.shared.sems .s_procs_completed ⟨0, [.makeprocs]⟩ }) := by
    simp [Program.alone, program, makeprocs, Shared.effect, hsh1, fifo.Sem.apply]
  obtain ⟨s2, hr2, hparent2, hsh2, hother2⟩ :=
    hr1.alone ((hother1 _ (by simp)).trans hparent) hrun2
  have hprod2 : s2.pc (.producer 0) = .ready ⟨.done, 10⟩ := by rw [hother2 _ (by simp), hprod1]
  have hcons2 : s2.pc (.consumer 0) = .asleep (.cond .c_fullslots) ⟨.remove, 0⟩ := by
    rw [hother2 _ (by simp), hother1 _ (by simp), hcons]
  refine ⟨?_, s2, hr2, ?_, ⟨_, hcons2⟩, ?_, ?_⟩
  · unfold FitsTable
    decide
  · rintro (_ | i | i)
    · simp [Program.step, Program.effect, hparent2]
    · obtain rfl : i = 0 := Subsingleton.elim ..
      simp [Program.step, Program.effect, hprod2, program, producer, Shared.effect]
    · obtain rfl : i = 0 := Subsingleton.elim ..
      simp [Program.step, Program.effect, hcons2]
  · rw [hsh2, hsh1]
    simp [hfree.head, hfree.tail]
  · rintro (_ | i | i) hp
    · exact .inr ⟨_, _, hparent2⟩
    · obtain rfl : i = 0 := Subsingleton.elim ..
      exact .inl ⟨_, hprod2, rfl⟩
    · obtain rfl : i = 0 := Subsingleton.elim ..
      exact absurd rfl hp

end dlxos.q4
