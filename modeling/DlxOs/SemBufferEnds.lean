-- The end of `q3`. The two semaphores never block all producers and consumers
-- at once, and none of them waits for the other ones in a loop, so every run
-- comes to its end, whatever the order of its steps.
import DlxOs.SemBuffer

namespace dlxos.q3

open Function monitor runs

variable {N : Nat} {s : State (Proc N) L Buffer Empty Sem} {p : Proc N}

/-! ## Places -/

/-- A producer or a consumer has a character left where it is about to use the
buffer, and none at its end. -/
def Within : ∀ p : Proc N, L p → Prop
  | .makeprocs, _ => True
  | .producer _, l => l.out_curr_idx ≤ ITEM_SIZE ∧
    (l.line = .acquire ∨ l.line = .insert → l.out_curr_idx < ITEM_SIZE) ∧
    (l.line = .done → l.out_curr_idx = ITEM_SIZE)
  | .consumer _, l => l.out_curr_idx ≤ ITEM_SIZE ∧
    (l.line = .acquire ∨ l.line = .remove → l.out_curr_idx < ITEM_SIZE) ∧
    (l.line = .done → l.out_curr_idx = ITEM_SIZE)

theorem within (h : (program N).Reachable s) (p : Proc N) : Within p (s.locs p) := by
  refine loc_rule (g := program N) (S := Within) ?_ ?_ h p
  · rintro (_ | i | i) <;> simp [Within, program]
  · rintro (_ | i | i) l cb l' cb' hl hn
    · trivial
    · rcases l with ⟨_ | _ | _ | _ | _ | _, k⟩ <;> simp only [program, producer] at hn
      · split at hn <;> cases hn <;> simp_all [Within]
        omega
      · cases hn
        simp_all [Within]
      · cases hn
        exact ⟨hl.2.1 (.inr rfl), by simp, by simp⟩
      all_goals cases hn
      all_goals simpa [Within] using hl
    · rcases l with ⟨_ | _ | _ | _ | _ | _, k⟩ <;> simp only [program, consumer] at hn
      · split at hn <;> cases hn <;> simp_all [Within]
        omega
      · cases hn
        simp_all [Within]
      · cases hn
        exact ⟨hl.2.1 (.inr rfl), by simp, by simp⟩
      all_goals cases hn
      all_goals simpa [Within] using hl

/-- Where the processes sleep. -/
def SleepsAt : ∀ p : Proc N, L p → Place Empty Sem → Prop
  | .makeprocs, l, w => l = ParentLine.done ∧ w = .sem .s_procs_completed
  | .producer _, l, w => l.line = .acquire ∧ w = .sem .s_emptyslots
  | .consumer _, l, w => l.line = .acquire ∧ w = .sem .s_fullslots

theorem sleeps_at (h : (program N).Reachable s) {w : Place Empty Sem} {l : L p}
    (hpc : s.pc p = .asleep w l) (hw : w ≠ .lock) : SleepsAt p l w := by
  obtain ⟨l0, cb, cb', hgoes⟩ := asleep_from h hw p l hpc
  rcases p with _ | i | i
  · cases l0 <;> cases hgoes
    exact ⟨rfl, rfl⟩
  · rcases l0 with ⟨_ | _ | _ | _ | _ | _, k⟩ <;> simp only [program, producer] at hgoes
    · split at hgoes <;> cases hgoes
      exact ⟨rfl, rfl⟩
    all_goals cases hgoes
    exact absurd rfl hw
  · rcases l0 with ⟨_ | _ | _ | _ | _ | _, k⟩ <;> simp only [program, consumer] at hgoes
    · split at hgoes <;> cases hgoes
      exact ⟨rfl, rfl⟩
    all_goals cases hgoes
    exact absurd rfl hw

/-- The program has come to its end. -/
def AtEnd : ∀ p : Proc N, L p → Prop
  | .makeprocs, l => l = ParentLine.done
  | .producer _, l => l.line = ProducerLine.done
  | .consumer _, l => l.line = ConsumerLine.done

theorem finished_at_end (h : (program N).Finished s p) : AtEnd p (s.locs p) := by
  obtain ⟨l, hpc, hop⟩ := h
  rw [locs_ready hpc]
  rcases p with _ | i | i
  · cases l <;> cases hop
    rfl
  · rcases l with ⟨_ | _ | _ | _ | _ | _, k⟩ <;> simp only [program, producer] at hop
    · split at hop <;> cases hop
    all_goals cases hop
    rfl
  · rcases l with ⟨_ | _ | _ | _ | _ | _, k⟩ <;> simp only [program, consumer] at hop
    · split at hop <;> cases hop
    all_goals cases hop
    rfl

/-! ## Three semaphores -/

/-- What the processes ask of each semaphore, less what they give to it. -/
def asks : Sem → ∀ p : Proc N, L p → Int
  | .s_fullslots, p, l => asked p l
  | .s_emptyslots, .makeprocs, _ => 0
  | .s_emptyslots, .producer _, l =>
    l.out_curr_idx + if l.line = .acquire ∨ l.line = .insert then 1 else 0
  | .s_emptyslots, .consumer _, l =>
    (if l.line = .release ∨ l.line = .signal then 1 else 0) - l.out_curr_idx
  | .s_procs_completed, .makeprocs, .wait => 0
  | .s_procs_completed, .makeprocs, .done => 1
  | .s_procs_completed, .producer _, l => if l.line = ProducerLine.done then -1 else 0
  | .s_procs_completed, .consumer _, l => if l.line = ConsumerLine.done then -1 else 0

theorem asks_step (m : Sem) (p : Proc N) (l : L p) (cb : Buffer) (l' : L p) (cb' : Buffer)
    (hn : ((program N).op p l).next cb = some (l', cb')) :
    asks m p l' = asks m p l + ((program N).op p l).units m := by
  cases m with
  | s_fullslots => exact asked_step hn
  | s_procs_completed =>
    rcases p with _ | i | i
    · cases l <;> cases hn
      rfl
    · rcases l with ⟨_ | _ | _ | _ | _ | _, k⟩ <;> simp only [program, producer] at hn ⊢
      · split at hn <;> cases hn <;> simp [asks, Op.units, *]
      all_goals cases hn
      all_goals simp [asks, Op.units]
    · rcases l with ⟨_ | _ | _ | _ | _ | _, k⟩ <;> simp only [program, consumer] at hn ⊢
      · split at hn <;> cases hn <;> simp [asks, Op.units, *]
      all_goals cases hn
      all_goals simp [asks, Op.units]
  | s_emptyslots =>
    rcases p with _ | i | i
    · cases l <;> cases hn
      rfl
    · rcases l with ⟨_ | _ | _ | _ | _ | _, k⟩ <;> simp only [program, producer] at hn ⊢
      · split at hn <;> cases hn <;> simp [asks, Op.units, *]
      all_goals cases hn
      all_goals simp [asks, Op.units]
    · rcases l with ⟨_ | _ | _ | _ | _ | _, k⟩ <;> simp only [program, consumer] at hn ⊢
      · split at hn <;> cases hn <;> simp [asks, Op.units, *]
      all_goals cases hn
      all_goals simp [asks, Op.units]
      omega

theorem sem_law (h : (program N).Reachable s) (m : Sem) :
    (s.shared.sems m).count + ∑ p, s.got m (asks m) p = (program N).count m := by
  have hlaw := semaphore_law (m := m) (asks m) (asks_step m) h
  have hstart : ∑ p, asks m p ((program N).start p) = 0 :=
    Finset.sum_eq_zero fun p _ => by cases m <;> rcases p with _ | i | i <;> rfl
  omega

/-- A process has got an empty cell for each character that it inserted, and has
given back no more cells than it emptied. -/
theorem cells_slack (h : (program N).Reachable s) (p : Proc N) :
    made p (s.locs p) - took p (s.locs p) ≤ s.got .s_emptyslots (asks .s_emptyslots) p := by
  unfold State.got
  split
  · rename_i hplace
    have hat := sleeps_at h (point_of_place hplace) (by simp)
    rcases p with _ | i | i
    · cases hat.2
    · have hline : (s.locs (.producer i)).line = ProducerLine.acquire := hat.1
      simp [asks, made, took, hline]
    · cases hat.2
  · rcases p with _ | i | i
    · simp [asks, made, took]
    · simp only [asks, made, took]
      split <;> omega
    · simp only [asks, made, took]
      split <;> omega

/-- There are never more characters in the buffer than it has cells, for any
number of pairs. -/
theorem capacity (h : (program N).Reachable s) :
    s.shared.mem.head ≤ s.shared.mem.tail + BUFFER_SIZE := by
  have hlaw := sem_law h .s_emptyslots
  have hcount := count_nonneg (g := program N) (m := .s_emptyslots) (by simp [program]) h
  have hsize : (program N).count .s_emptyslots = BUFFER_SIZE := rfl
  have hcounts := (accounts N).counts h
  have hhead : (s.shared.mem.head : Int) = ∑ q, made q (s.locs q) := hcounts.head
  have htail : (s.shared.mem.tail : Int) = ∑ q, took q (s.locs q) := hcounts.tail
  have hsum := Finset.sum_le_sum fun p (_ : p ∈ Finset.univ) => cells_slack h p
  rw [Finset.sum_sub_distrib] at hsum
  omega

/-! ## Stuck states -/

/-- A process that waits has got what it asked for before, and no more. -/
theorem stuck_got (h : (program N).Reachable s) (hs : (program N).Stuck s) (p : Proc N) :
    s.got .s_fullslots (asks .s_fullslots) p = took p (s.locs p) - made p (s.locs p) ∧
      s.got .s_emptyslots (asks .s_emptyslots) p = made p (s.locs p) - took p (s.locs p) := by
  unfold State.got
  rcases (h.ok.stuck hs).2 p with hfin | ⟨w, l, hpc, hw⟩
  · have hend := finished_at_end hfin
    obtain ⟨l, hpc, _⟩ := hfin
    rw [hpc, Point.place_ready]
    rcases p with _ | i | i
    · simp [asks, asked, took, made]
    · have hline : (s.locs (.producer i)).line = ProducerLine.done := hend
      simp [asks, asked, took, made, hline]
    · have hline : (s.locs (.consumer i)).line = ConsumerLine.done := hend
      simp [asks, asked, took, made, hline]
  · have hat := sleeps_at h hpc hw
    have hloc : s.locs p = l := locs_asleep hpc
    rw [hpc, hloc, Point.place_asleep]
    rcases p with _ | i | i
    · obtain ⟨rfl, rfl⟩ := hat
      simp [asks, asked, took, made]
    · obtain ⟨hline, rfl⟩ := hat
      simp [asks, asked, took, made, hline]
    · obtain ⟨hline, rfl⟩ := hat
      simp [asks, asked, took, made, hline]

/-- The full cells and the empty cells, where no process can run. -/
theorem stuck_counts (h : (program N).Reachable s) (hs : (program N).Stuck s) :
    (s.shared.sems .s_fullslots).count = s.shared.mem.head - s.shared.mem.tail ∧
      (s.shared.sems .s_emptyslots).count =
        BUFFER_SIZE - (s.shared.mem.head - s.shared.mem.tail) := by
  have hcounts := (accounts N).counts h
  have hhead : (s.shared.mem.head : Int) = ∑ q, made q (s.locs q) := hcounts.head
  have htail : (s.shared.mem.tail : Int) = ∑ q, took q (s.locs q) := hcounts.tail
  have hfull := sem_law h .s_fullslots
  have hempty := sem_law h .s_emptyslots
  rw [Finset.sum_congr rfl fun p _ => (stuck_got h hs p).1, Finset.sum_sub_distrib] at hfull
  rw [Finset.sum_congr rfl fun p _ => (stuck_got h hs p).2, Finset.sum_sub_distrib] at hempty
  have hzero : (program N).count .s_fullslots = 0 := rfl
  have hsize : (program N).count .s_emptyslots = BUFFER_SIZE := rfl
  constructor <;> omega

/-- A producer that sleeps would wait for a consumer that has ended. -/
theorem producer_finished (h : (program N).Reachable s) (hs : (program N).Stuck s) (i : Fin N) :
    (program N).Finished s (.producer i) := by
  refine ((h.ok.stuck hs).2 _).resolve_right ?_
  rintro ⟨w, l, hpc, hw⟩
  obtain ⟨_, rfl⟩ := sleeps_at h hpc hw
  obtain ⟨hfull, hempty⟩ := stuck_counts h hs
  have hneg : (s.shared.sems .s_emptyslots).count ≤ 0 := asleep_count h hpc
  -- so the buffer is full, and no consumer sleeps
  have htook : ∀ j : Fin N, took (.consumer j) (s.locs (.consumer j)) = ITEM_SIZE := by
    intro j
    have hend : (program N).Finished s (.consumer j) := by
      refine ((h.ok.stuck hs).2 _).resolve_right ?_
      rintro ⟨w, l', hpc', hw'⟩
      obtain ⟨_, rfl⟩ := sleeps_at h hpc' hw'
      have hneg' : (s.shared.sems .s_fullslots).count ≤ 0 := asleep_count h hpc'
      simp only [BUFFER_SIZE] at hempty
      omega
    simp [took, (within h (.consumer j)).2.2 (finished_at_end hend)]
  have hcounts := (accounts N).counts h
  have htail : (s.shared.mem.tail : Int) = ∑ q, took q (s.locs q) := hcounts.tail
  rw [sum_proc, Finset.sum_congr rfl fun j _ => htook j] at htail
  simp only [took, Finset.sum_const_zero, Finset.sum_const, Finset.card_univ, Fintype.card_fin,
    nsmul_eq_mul] at htail
  have hhead := hcounts.head_le .makeprocs
  simp only [accounts, does, BUFFER_SIZE, ITEM_SIZE] at hhead hempty htail
  simp at hhead
  omega

/-- A consumer that sleeps would wait for a producer that has ended. -/
theorem consumer_finished (h : (program N).Reachable s) (hs : (program N).Stuck s) (i : Fin N) :
    (program N).Finished s (.consumer i) := by
  refine ((h.ok.stuck hs).2 _).resolve_right ?_
  rintro ⟨w, l, hpc, hw⟩
  obtain ⟨hline, rfl⟩ := sleeps_at h hpc hw
  have hfull := (stuck_counts h hs).1
  have hneg : (s.shared.sems .s_fullslots).count ≤ 0 := asleep_count h hpc
  have hcounts := (accounts N).counts h
  have hhead : (s.shared.mem.head : Int) = ∑ q, made q (s.locs q) := hcounts.head
  have htail : (s.shared.mem.tail : Int) = ∑ q, took q (s.locs q) := hcounts.tail
  have hmade : ∀ j : Fin N, made (.producer j) (s.locs (.producer j)) = ITEM_SIZE := by
    intro j
    have hend := finished_at_end (producer_finished h hs j)
    simp [made, (within h (.producer j)).2.2 hend]
  -- it has a character left
  have hloc : s.locs (.consumer i) = l := locs_asleep hpc
  have hlt : ∑ j : Fin N, took (.consumer j) (s.locs (.consumer j)) <
      ∑ _j : Fin N, (ITEM_SIZE : Int) := by
    refine Finset.sum_lt_sum (fun j _ => ?_) ⟨i, Finset.mem_univ i, ?_⟩
    · have hle := (within h (.consumer j)).1
      simp only [took]
      omega
    · have hlt := (within h (.consumer i)).2.1 (.inl (hloc ▸ hline))
      simp only [took]
      omega
  rw [sum_proc, Finset.sum_congr rfl fun j _ => hmade j] at hhead
  rw [sum_proc] at htail
  simp only [made, took, Finset.sum_const_zero] at hhead htail
  simp only [took] at hlt
  omega

/-- All the others have given their unit. -/
theorem makeprocs_finished (h : (program N).Reachable s) (hs : (program N).Stuck s) :
    (program N).Finished s .makeprocs := by
  refine ((h.ok.stuck hs).2 _).resolve_right ?_
  rintro ⟨w, l, hpc, hw⟩
  obtain ⟨rfl, rfl⟩ := sleeps_at h hpc hw
  have hneg : (s.shared.sems .s_procs_completed).count ≤ 0 := asleep_count h hpc
  have hlaw := sem_law h .s_procs_completed
  have hcount : (program N).count .s_procs_completed = procsCompleted N := rfl
  have hgot : ∀ p, p ≠ .makeprocs → s.got .s_procs_completed (asks .s_procs_completed) p = -1 := by
    intro p hp
    have hfin : (program N).Finished s p := by
      rcases p with _ | i | i
      · exact absurd rfl hp
      · exact producer_finished h hs i
      · exact consumer_finished h hs i
    have hend := finished_at_end hfin
    obtain ⟨l, hl, _⟩ := hfin
    unfold State.got
    rw [hl, Point.place_ready, if_neg (by simp)]
    rcases p with _ | i | i
    · exact absurd rfl hp
    · simp [asks, show (s.locs (.producer i)).line = ProducerLine.done from hend]
    · simp [asks, show (s.locs (.consumer i)).line = ConsumerLine.done from hend]
  have hparent : s.got .s_procs_completed (asks .s_procs_completed) .makeprocs = 0 := by
    have hloc : s.locs .makeprocs = ParentLine.done := locs_asleep hpc
    unfold State.got
    rw [hpc, hloc]
    rfl
  have hone := procs_completed (hlaw.trans hcount) hparent hgot
  omega

theorem stuck_finished (h : (program N).Reachable s) (hs : (program N).Stuck s) (p : Proc N) :
    (program N).Finished s p := by
  rcases p with _ | i | i
  · exact makeprocs_finished h hs
  · exact producer_finished h hs i
  · exact consumer_finished h hs i

/-! ## Every run ends -/

/-- How many operations are left. -/
def left : ∀ p : Proc N, L p → Nat
  | .makeprocs, .wait => 1
  | .makeprocs, .done => 0
  | .producer _, ⟨.loop, i⟩ | .consumer _, ⟨.loop, i⟩ => (ITEM_SIZE - i) * 5 + 1
  | .producer _, ⟨.acquire, i⟩ | .consumer _, ⟨.acquire, i⟩ => (ITEM_SIZE - 1 - i) * 5 + 5
  | .producer _, ⟨.insert, i⟩ | .consumer _, ⟨.remove, i⟩ => (ITEM_SIZE - 1 - i) * 5 + 4
  | .producer _, ⟨.release, i⟩ | .consumer _, ⟨.release, i⟩ => (ITEM_SIZE - i) * 5 + 3
  | .producer _, ⟨.signal, i⟩ | .consumer _, ⟨.signal, i⟩ => (ITEM_SIZE - i) * 5 + 2
  | .producer _, ⟨.done, _⟩ | .consumer _, ⟨.done, _⟩ => 0

theorem left_next (p : Proc N) (l : L p) (cb : Buffer) (l' : L p) (cb' : Buffer)
    (hn : ((program N).op p l).next cb = some (l', cb')) : left p l' < left p l := by
  rcases p with _ | i | i
  · cases l <;> cases hn
    exact Nat.one_pos
  · rcases l with ⟨_ | _ | _ | _ | _ | _, k⟩ <;> simp only [program, producer] at hn
    · split at hn <;> cases hn <;> simp_all [left]
      omega
    all_goals cases hn
    all_goals simp only [left]
    all_goals omega
  · rcases l with ⟨_ | _ | _ | _ | _ | _, k⟩ <;> simp only [program, consumer] at hn
    · split at hn <;> cases hn <;> simp_all [left]
      omega
    all_goals cases hn
    all_goals simp only [left]
    all_goals omega

/-- The heights of the first state. -/
theorem height_start : ∑ p, ((program N).init.pc p).height (left p) = 306 * N + 3 := by
  have hsum := sum_proc fun p : Proc N => ((((program N).init.pc p).height (left p) : Nat) : Int)
  rw [← Nat.cast_sum] at hsum
  simp only [Program.init, program, Point.height, left, ITEM_SIZE, Finset.sum_const,
    Finset.card_univ, Fintype.card_fin, nsmul_eq_mul] at hsum ⊢
  omega

/-! ## What was inserted -/

/-- How often a process has inserted the character. -/
def sent (c : Char) : ∀ p : Proc N, L p → Int
  | .makeprocs, _ | .consumer _, _ => 0
  | .producer _, l => (((List.range l.out_curr_idx).map out_content).count c : Int)

theorem sent_next {c : Char} {p : Proc N} {l l' : L p} {cb cb' : Buffer}
    (hn : ((program N).op p l).next cb = some (l', cb')) :
    (cb'.inserted.count c : Int) = cb.inserted.count c + (sent c p l' - sent c p l) := by
  rcases p with _ | i | i
  · cases l <;> cases hn
    simp [sent]
  · rcases l with ⟨_ | _ | _ | _ | _ | _, k⟩ <;> simp only [program, producer] at hn
    · split at hn <;> cases hn <;> simp [sent]
    all_goals cases hn
    all_goals simp [sent, Buffer.insert, List.range_succ]
  · rcases l with ⟨_ | _ | _ | _ | _ | _, k⟩ <;> simp only [program, consumer] at hn
    · split at hn <;> cases hn <;> simp [sent]
    all_goals cases hn
    all_goals simp [sent, Buffer.remove]

theorem inserted_count (h : (program N).Reachable s) (c : Char) :
    (s.shared.mem.inserted.count c : Int) = ∑ p, sent c p (s.locs p) := by
  refine data_rule (g := program N)
    (J := fun locs cb => (cb.inserted.count c : Int) = ∑ p, sent c p (locs p)) ?_ ?_ h
  · rw [sum_proc]
    simp [program, Buffer.empty, sent]
  · intro locs cb p l cb' hJ hn
    rw [sum_update, sent_next hn, hJ]
    omega

/-- What the page holds once all processes have finished. -/
structure Delivered (N : Nat) (cb : Buffer) : Prop where
  removed : cb.removed = cb.inserted
  head : cb.head = ITEM_SIZE * N
  inserted : ∀ c, cb.inserted.count c = N * BUF_ITEM.toList.count c

theorem delivered (h : (program N).Reachable s) (hfin : ∀ p, (program N).Finished s p) :
    Delivered N s.shared.mem := by
  have hend : ∀ p, AtEnd p (s.locs p) := fun p => finished_at_end (hfin p)
  have hcounts := (accounts N).counts h
  have hhead : (s.shared.mem.head : Int) = ∑ q, made q (s.locs q) := hcounts.head
  have htail : (s.shared.mem.tail : Int) = ∑ q, took q (s.locs q) := hcounts.tail
  have hprod : ∀ i, (s.locs (.producer i)).out_curr_idx = ITEM_SIZE := fun i =>
    (within h (.producer i)).2.2 (hend (.producer i))
  have hcons : ∀ i, (s.locs (.consumer i)).out_curr_idx = ITEM_SIZE := fun i =>
    (within h (.consumer i)).2.2 (hend (.consumer i))
  rw [sum_proc] at hhead htail
  simp only [made, took, hprod, hcons, Finset.sum_const, Finset.card_univ, Fintype.card_fin,
    nsmul_eq_mul] at hhead htail
  have hhist := (accounts N).history (fun s hs p => remove_finds hs) h
  refine ⟨?_, ?_, fun c => ?_⟩
  · rw [hhist.removed, hhist.inserted]
    congr 2
    omega
  · simp only [ITEM_SIZE] at hhead ⊢
    omega
  · have hcount := inserted_count h c
    have hitem : (List.range ITEM_SIZE).map out_content = BUF_ITEM.toList := by decide
    rw [sum_proc] at hcount
    simp only [sent, hprod, hitem, Finset.sum_const, Finset.card_univ, Fintype.card_fin,
      nsmul_eq_mul, zero_add] at hcount
    exact_mod_cast hcount

/-- Whatever the order of the steps, the programs come to their end, and then
each character of the item has gone through the buffer once for each pair. -/
theorem every_run_ends (N : Nat) :
    (∀ tr s, runs.Run (program N).Step (program N).init tr s → tr.length ≤ 306 * N + 3) ∧
    (∀ s, (program N).Reachable s → (program N).Stuck s → ∀ p, (program N).Finished s p) ∧
    ∀ s, (program N).Reachable s →
      s.shared.mem.head ≤ s.shared.mem.tail + BUFFER_SIZE ∧
      ((∀ p, (program N).Finished s p) → Delivered N s.shared.mem) := by
  refine ⟨fun tr s hr => ?_, fun s h hs p => stuck_finished h hs p,
    fun s h => ⟨capacity h, delivered h⟩⟩
  have hlength := run_length left_next hr
  rw [height_start] at hlength
  omega

end dlxos.q3
