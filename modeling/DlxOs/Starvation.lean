-- How long a process waits for its turn. Where no process ends, each turn that
-- ends brings a process of the run queue one place nearer to its own. But at
-- the end of a process the scheduler moves the next one to the end of the
-- queue, and so a process can be passed over again and again.
import DlxOs.RoundRobin

namespace dlxos

open Function runs

variable {b : Boot} {n i : Nat} {e : Event} {r : Return} {m m' : Machine} {lab : Label}
  {tr : List (Move Machine Label)} {c p q x y : Pid}

/-! ## A bound -/

instance (e : Event) (r : Return) : Decidable (EndsTurn e r) :=
  decidable_of_iff ((e = .timer ∨ e = .contextSwitch ∨ e = .exit) ∨
    (∀ isUser loads, e ≠ .fork isUser loads) ∧ r = none) (by cases e <;> simp [EndsTurn])

/-- How many turns have ended. -/
def turns (tr : List (Move Machine Label)) : Nat :=
  tr.countP fun mv => EndsTurn mv.label.1.event mv.label.2

/-- How many processes have ended. -/
def exits (tr : List (Move Machine Label)) : Nat := tr.countP fun mv => mv.label.1.event = .exit

/-- How many user processes have been created. -/
def forks (tr : List (Move Machine Label)) : Nat :=
  tr.countP fun mv => mv.label.1.event = .fork true true

theorem turns_snoc (mv : Move Machine Label) : turns (tr ++ [mv]) =
    turns tr + if EndsTurn mv.label.1.event mv.label.2 then 1 else 0 := by
  simp [turns, List.countP_append, List.countP_singleton]

theorem exits_snoc (mv : Move Machine Label) : exits (tr ++ [mv]) =
    exits tr + if mv.label.1.event = .exit then 1 else 0 := by
  simp [exits, List.countP_append, List.countP_singleton]

/-- The place of a process in the run queue. -/
def At (m : Machine) (p : Pid) (i : Nat) : Prop :=
  ∃ l1 l2, m.queue .runQueue = l1 ++ p :: l2 ∧ l1.length = i

theorem Good.run_length (h : Good m) : (m.queue .runQueue).length ≤ PROCESS_MAX_PROCS := by
  have hle := (h.queue_nodup .runQueue).length_le_card
  rwa [Fintype.card_fin] at hle

/-- A process that does not run comes one place nearer at the end of a turn. The
end of a process may take it back by the length of the queue. -/
theorem Good.at_step (h : Good m) (hs : m.Step lab m') (hat : At m p i)
    (hp : m.kernel.currentPCB ≠ some p) :
    ∃ j, At m' p j ∧ j + (if EndsTurn lab.1.event lab.2 then 1 else 0) ≤
      i + 30 * if lab.1.event = .exit then 1 else 0 := by
  obtain ⟨l1, l2, hq, rfl⟩ := hat
  rcases l1 with _ | ⟨c, l1⟩
  · rw [h.current] at hp
    exact absurd (current_eq hq) hp
  have hlen := h.run_length
  rw [List.cons_append] at hq
  rw [hq] at hlen
  obtain ⟨⟨_, v, hv⟩, _⟩ := h.step hs
  by_cases hexit : lab.1.event = .exit
  · -- the process behind the one that ends goes to the end of the queue
    rw [hexit] at hv ⊢
    rw [if_pos rfl, if_pos (by simp [EndsTurn])]
    rcases l1 with _ | ⟨q, l1⟩
    · refine ⟨l2.length, ⟨l2, [], step_exit hq hv, rfl⟩, ?_⟩
      simp only [List.nil_append, List.length_cons, List.length_nil, PROCESS_MAX_PROCS] at hlen ⊢
      omega
    · have hrun : m'.queue .runQueue = (l1 ++ p :: l2) ++ [q] := step_exit hq hv
      refine ⟨l1.length, ⟨l1, l2 ++ [q], by simpa using hrun, rfl⟩, ?_⟩
      simp only [List.length_cons]
      omega
  · rw [if_neg hexit]
    by_cases he : EndsTurn lab.1.event lab.2
    · have hrun := step_endsTurn hq hv he hexit
      rw [if_pos he]
      exact ⟨l1.length, ⟨l1, _, by simpa using hrun, rfl⟩, by simp⟩
    · rw [if_neg he]
      rcases step_run hq hv with ⟨tail, hrun⟩ | ⟨_, ⟨tail, hrun⟩, _⟩ | ⟨hx, _⟩
      · exact ⟨l1.length + 1, ⟨c :: l1, l2 ++ tail, by simpa using hrun, rfl⟩, by simp⟩
      · exact ⟨l1.length, ⟨l1, l2 ++ tail, by simpa using hrun, rfl⟩, by simp⟩
      · exact absurd hx hexit

/-- In a run in which a process of the run queue has no turn, it stays on the
queue, and the turns that end are few, but for the ends of processes. -/
theorem Good.at_run (h : Good m) (hr : Run Machine.Step m tr m') (hat : At m p i)
    (hp : ∀ mv ∈ tr, mv.pre.kernel.currentPCB ≠ some p) :
    ∃ j, At m' p j ∧ j + turns tr ≤ i + 30 * exits tr := by
  have hrule := hr.rule (I := fun tr t => Good t ∧
    ((∀ mv ∈ tr, mv.pre.kernel.currentPCB ≠ some p) →
      ∃ j, At t p j ∧ j + turns tr ≤ i + 30 * exits tr)) ?_ ?_
  · exact hrule.2 hp
  · exact ⟨h, fun _ => ⟨i, hat, by simp [turns]⟩⟩
  · rintro tr t lab u _ ⟨hg, hwait⟩ hs
    refine ⟨(hg.step hs).2.good, fun hp => ?_⟩
    obtain ⟨j, hj, hle⟩ := hwait fun mv hmv => hp mv (by simp [hmv])
    obtain ⟨k, hk, hstep⟩ := hg.at_step hs hj (hp ⟨t, lab, u⟩ (by simp))
    refine ⟨k, hk, ?_⟩
    rw [turns_snoc, exits_snoc]
    dsimp only at hstep ⊢
    omega

/-- A process of the run queue has its turn before more turns end than there are
processes before it, and thirty for each process that ends. -/
theorem bounded_wait (h : Reachable m) (hr : Run Machine.Step m tr m') (hat : At m p i)
    (hwait : i + 30 * exits tr ≤ turns tr) :
    m'.kernel.currentPCB = some p ∨ ∃ mv ∈ tr, mv.pre.kernel.currentPCB = some p := by
  by_contra hnot
  push Not at hnot
  obtain ⟨hlast, hp⟩ := hnot
  obtain ⟨j, ⟨l1, l2, hq, hj⟩, hle⟩ := h.good.at_run hr hat hp
  have hzero : l1.length = 0 := by omega
  rw [List.eq_nil_of_length_eq_zero hzero] at hq
  rw [(h.run hr).good.current] at hlast
  exact hlast (current_eq hq)

theorem wait_of_a_run : ∃ m tr m', Reachable m ∧ Run Machine.Step m tr m' ∧ At m 29 2 ∧
    2 + 30 * exits tr ≤ turns tr ∧ (m'.kernel.currentPCB = some 29 ∨
      ∃ mv ∈ tr, mv.pre.kernel.currentPCB = some 29) := by
  obtain ⟨m0, level, m, tr, m', h0, hs, hr, hq, hc⟩ := exists_run_after 2
    [.fork true true, .fork true true, .fork true true, .timer, .call .lockCreate, .timer]
    (.fork true true, none)
    (fun ms _ => ms.head?.map (fun mv => mv.pre.queue .runQueue) = some [31, 30, 29] ∧
      2 + 30 * ms.countP (fun mv => mv.label.1 = .exit) ≤
        ms.countP fun mv => EndsTurn mv.label.1 mv.label.2)
    (by decide +kernel)
  have hrun : m.queue .runQueue = [31, 30, 29] := by
    rcases tr with _ | ⟨mv, tr⟩
    · cases hq
    · rw [← hr.uncons.1]
      exact Option.some.inj hq
  have hle : 2 + 30 * exits tr ≤ turns tr := by
    simpa [systemMoves, List.countP_map, Function.comp_def, exits, turns] using hc
  have hat : At m 29 2 := ⟨[31, 30], [], hrun, rfl⟩
  exact ⟨m, tr, m', h0.step hs, hr, hat, hle, bounded_wait (h0.step hs) hr hat hle⟩

/-! ## A process that never has its turn -/

theorem Roomy.fork (h : Roomy b n m) (hq : m.queue .freepcbs = y :: ps)
    (hroom : 2 * (PROCESS_MAX_PROCS + 1) ≤ n + 2 * (m.queue .freepcbs).length)
    (hstop : ∀ q, m.system.stopped q = none) :
    ∃ m', m.Step (⟨.fork true true, 0⟩, none) m' ∧
      m'.system = m.system.move y .freepcbs .runQueue ∧ Roomy b n m' := by
  apply h.enter
  · exact fun q _ => hstop q
  · exact decide_eq_true hroom
  · simp [System.step, hq]

theorem Roomy.exit (h : Roomy b n m) (hq : m.queue .runQueue = c :: q :: ps)
    (hstop : m.system.stopped c = none) :
    ∃ m', m.Step (⟨.exit, 0⟩, none) m' ∧
      m'.system = (m.system.move c .runQueue .freepcbs).move q .runQueue .runQueue ∧
      Roomy b n m' := by
  apply h.enter
  · exact ⟨c, current_eq hq, hstop⟩
  · rfl
  · simp [System.step, hq]

theorem Roomy.timer (h : Roomy b n m) (hq : m.queue .runQueue = c :: ps) :
    ∃ m', m.Step (⟨.timer, 0⟩, none) m' ∧
      m'.system = m.system.move c .runQueue .runQueue ∧ Roomy b n m' := by
  have hcur : m.system.current = some c := current_eq hq
  apply h.enter
  · simp [System.Ready, hcur]
  · rfl
  · simp [System.step, hq]

/-- Three processes can run, and none of them is inside a call. -/
structure Trio (c p x : Pid) (m : Machine) : Prop where
  roomy : Roomy Boot.small 30 m
  queue : m.queue .runQueue = [c, p, x]
  free : (m.queue .freepcbs).length = 29
  stopped : ∀ q, m.system.stopped q = none

/-- The process can run all the time, but it has no turn. -/
def PassedOver (p : Pid) (tr : List (Move Machine Label)) : Prop :=
  ∀ mv ∈ tr, p ∈ mv.pre.queue .runQueue ∧ mv.pre.kernel.currentPCB ≠ some p

/-- A new process comes, the current one ends, and so does the turn of the next
one. The process that was second is second again. -/
theorem Trio.cycle (h : Trio c p x m) : ∃ tr m' y, Run Machine.Step m tr m' ∧
    forks tr = 1 ∧ exits tr = 1 ∧ PassedOver p tr ∧ Trio y p x m' := by
  have hnd := h.roomy.good.queue_nodup .runQueue
  rw [h.queue] at hnd
  have hcp : c ≠ p := fun he => by simp [he] at hnd
  have hxp : x ≠ p := fun he => by simp [he] at hnd
  obtain ⟨y, fs, hfree⟩ : ∃ y fs, m.queue .freepcbs = y :: fs :=
    List.exists_cons_of_length_eq_add_one h.free
  -- the new process is last
  obtain ⟨m1, hs1, he1, hroomy1⟩ := h.roomy.fork hfree
    (by rw [h.free]; decide) h.stopped
  have hq1 : m1.queue .runQueue = [c, p, x, y] := by
    rw [← system_queue, he1]
    simp [moveLast, h.queue]
  have hstop1 : ∀ q, m1.system.stopped q = none := by
    rw [he1]
    exact h.stopped
  -- the end of the current process takes the second one to the end
  obtain ⟨m2, hs2, he2, hroomy2⟩ := hroomy1.exit hq1 (hstop1 c)
  have hq2 : m2.queue .runQueue = [x, y, p] := by
    rw [← system_queue, he2]
    simp [moveLast, hq1]
  obtain ⟨m3, hs3, he3, hroomy3⟩ := hroomy2.timer hq2
  have hq3 : m3.queue .runQueue = [y, p, x] := by
    rw [← system_queue, he3]
    simp [moveLast, hq2]
  have hfree3 : m3.queue .freepcbs = fs ++ [c] := by
    rw [← system_queue, he3]
    simp [moveLast, he2, he1, hfree]
  refine ⟨_, m3, y, ((Run.nil.cons hs3).cons hs2).cons hs1, rfl, rfl, ?_, hroomy3,
    hq3, ?_, ?_⟩
  · intro mv hmv
    simp only [List.mem_cons, List.not_mem_nil, or_false] at hmv
    rcases hmv with rfl | rfl | rfl
    · refine ⟨by simp [h.queue], ?_⟩
      rw [h.roomy.good.current, current_eq h.queue]
      simpa using hcp
    · refine ⟨by simp [hq1], ?_⟩
      rw [hroomy1.good.current, current_eq hq1]
      simpa using hcp
    · refine ⟨by simp [hq2], ?_⟩
      rw [hroomy2.good.current, current_eq hq2]
      simpa using hxp
  · have hlen := h.free
    rw [hfree] at hlen
    simpa [hfree3] using hlen
  · rw [he3]
    simpa [he2] using hstop1

theorem Trio.cycles (h : Trio c p x m) (n : Nat) : ∃ tr m' y, Run Machine.Step m tr m' ∧
    forks tr = n ∧ exits tr = n ∧ PassedOver p tr ∧ Trio y p x m' := by
  induction n with
  | zero => exact ⟨[], m, c, .nil, rfl, rfl, by simp [PassedOver], h⟩
  | succ n ih =>
    obtain ⟨tr, m1, y, hr, hf, hn, hp, h1⟩ := ih
    obtain ⟨tr1, m2, z, hr1, hf1, hn1, hp1, h2⟩ := h1.cycle
    refine ⟨tr ++ tr1, m2, z, hr.append hr1, ?_, ?_, ?_, h2⟩
    · unfold forks at *
      rw [List.countP_append, hf, hf1]
    · unfold exits at *
      rw [List.countP_append, hn, hn1]
    · intro mv hmv
      exact (List.mem_append.mp hmv).elim (hp mv) (hp1 mv)

/-- There is a state with a process that can run, from which any number of
processes are created and run to their end before it has a turn. -/
theorem starvation : ∃ m p, Reachable m ∧ p ∈ m.queue .runQueue ∧
    ∀ n, ∃ tr m', Run Machine.Step m tr m' ∧ forks tr = n ∧ exits tr = n ∧
      PassedOver p tr ∧ p ∈ m'.queue .runQueue ∧ m'.kernel.currentPCB ≠ some p := by
  obtain ⟨m, hm, ⟨hq, hfree, hstop⟩, hroomy⟩ := exists_roomy
    [.fork true true, .fork true true, .fork true true]
    (fun a => a.queue .runQueue = [31, 30, 29] ∧ (a.queue .freepcbs).length = 29 ∧
      ∀ q, a.stopped q = none) (by decide +kernel)
  have h : Trio 31 30 29 m := ⟨hroomy, hq, hfree, hstop⟩
  refine ⟨m, 30, hm, by simp [h.queue], fun n => ?_⟩
  obtain ⟨tr, m', y, hr, hf, hn, hp, h'⟩ := h.cycles n
  refine ⟨tr, m', hr, hf, hn, hp, by simp [h'.queue], ?_⟩
  rw [h'.roomy.good.current, current_eq h'.queue]
  have hnd := h'.roomy.good.queue_nodup .runQueue
  rw [h'.queue] at hnd
  intro he
  simp [Option.some.inj he] at hnd

end dlxos
