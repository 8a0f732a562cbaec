-- The order in which processes run. Each event that ends the turn of the
-- current process hands the processor to the next one in the queue, but where
-- a process ends, the scheduler moves the next one to the end.
import DlxOs.Exec

namespace dlxos

open Function runs

variable {a b : System} {v : Int} {e : Event} {r : Return} {p q x y : Pid} {ps : List Pid}
  {m m' : Machine} {lab : Label} {tr : List (Move Machine Label)}

/-- The event ends the turn of the current process: an interrupt, a trap that
gives the processor up, or a call that goes to sleep. -/
def EndsTurn (e : Event) (r : Return) : Prop :=
  e = .timer ∨ e = .contextSwitch ∨ e = .exit ∨ ((∃ c, e = .call c) ∨ e = .resume) ∧ r = none

/-- The processes that an event puts at the end of the run queue: the current
one, if it can still run, or the one to which it hands a lock. -/
def System.joins (a : System) (cur : Pid) (e : Event) : List Pid :=
  if e = .timer ∨ e = .contextSwitch then [cur] else a.handed e

/-- The next process runs, and the others follow in their order. -/
structure TurnOk (m m' : Machine) (e : Event) (cur : Pid) (ps : List Pid) : Prop where
  next : m'.kernel.currentPCB = ps.head?
  queue : m'.queue .runQueue = ps ++ m.system.joins cur e

/-! ## One step -/

/-- What the end of a turn does to the run queue. -/
theorem step_endsTurn (hq : a.queue .runQueue = p :: ps) (hs : a.step v e = some (b, r))
    (he : EndsTurn e r) (hexit : e ≠ .exit) : b.queue .runQueue = ps ++ a.joins p e := by
  cases System.steps hs with
  | timer hq' | contextSwitch hq' =>
    obtain ⟨rfl, rfl⟩ := List.cons.inj (hq.symm.trans hq')
    simp [moveLast, hq, System.joins]
  | exit => exact absurd rfl hexit
  | forkFails | fork => simp [EndsTurn] at he
  | @call _ _ c _ _ hq' hc =>
    obtain ⟨rfl, rfl⟩ := List.cons.inj (hq.symm.trans hq')
    rcases call_run hq hc with ⟨⟨n, rfl⟩, _⟩ | ⟨_, h, _⟩
    · simp [EndsTurn, Result.value] at he
    · simpa [System.joins] using h
  | resume hq' hstop hc =>
    obtain ⟨rfl, rfl⟩ := List.cons.inj (hq.symm.trans hq')
    rcases resumes_run hq hc with ⟨⟨n, rfl⟩, _⟩ | ⟨_, h, _⟩
    · simp [EndsTurn, Result.value] at he
    · simpa [System.joins, System.handed] using h

theorem step_exit (hq : a.queue .runQueue = p :: q :: ps) (hs : a.step v .exit = some (b, r)) :
    b.queue .runQueue = ps ++ [q] := by
  cases System.steps hs with
  | exit hq' =>
    obtain ⟨rfl, he⟩ := List.cons.inj (hq.symm.trans hq')
    obtain ⟨rfl, rfl⟩ := List.cons.inj he
    simp [moveLast, hq]

/-- The turn is passed on in order, but for the end of a process with two or
more processes behind it. -/
theorem Good.turnOk_iff (h : Good m) (hs : m.Step lab m') (he : EndsTurn lab.1.event lab.2)
    (hq : m.queue .runQueue = p :: ps) (hne : ps ≠ []) :
    TurnOk m m' lab.1.event p ps ↔ lab.1.event ≠ .exit ∨ ps.length = 1 := by
  obtain ⟨⟨_, v, hv⟩, hf⟩ := h.step hs
  have hcur : m'.kernel.currentPCB = (m'.queue .runQueue).head? := hf.good.current
  by_cases hexit : lab.1.event = .exit
  · obtain ⟨q, rs, rfl⟩ := List.exists_cons_of_ne_nil hne
    simp only [hexit] at hv ⊢
    have hrun : m'.queue .runQueue = rs ++ [q] := step_exit hq hv
    have hjoins : m.system.joins p .exit = [] := rfl
    obtain ⟨home, waits, hsl⟩ := h.inv.sleepers
    have hd := hsl.placed.nodup .runQueue
    rw [system_queue, hq] at hd
    have hnot : q ∉ rs := (List.nodup_cons.mp (List.nodup_cons.mp hd).2).1
    constructor
    · intro hok
      have hq' := hok.queue
      rw [hrun, hjoins] at hq'
      rcases rs with _ | ⟨x, xs⟩
      · exact .inr rfl
      · simp only [List.cons_append, List.append_nil] at hq'
        exact absurd (List.cons.inj hq').1.symm fun hx => hnot (by simp [hx])
    · rintro (hne | hone)
      · exact absurd rfl hne
      · obtain rfl : rs = [] := by simpa using hone
        exact ⟨by rw [hcur, hrun]; rfl, by rw [hrun, hjoins]; rfl⟩
  · have hrun : m'.queue .runQueue = ps ++ m.system.joins p lab.1.event :=
      step_endsTurn hq hv he hexit
    refine ⟨fun _ => .inl hexit, fun _ => ⟨?_, hrun⟩⟩
    obtain ⟨q, rs, rfl⟩ := List.exists_cons_of_ne_nil hne
    rw [hcur, hrun]
    rfl

/-! ## Runs -/

/-- Process `y` is not before process `x` in the run queue. -/
def Behind (m : Machine) (x y : Pid) : Prop :=
  ∃ l1 l2, m.queue .runQueue = l1 ++ x :: l2 ∧ y ∉ l1 ∧ y ≠ x

/-- A process ends only where one other process can run. -/
def LastExit (mv : Move Machine Label) : Prop :=
  mv.label.1.event = .exit → (mv.pre.queue .runQueue).length = 2

/-- A process that does not run yet keeps its place before the ones behind
it. -/
theorem Good.behind_step (h : Good m) (hs : m.Step lab m') (hexit : LastExit ⟨m, lab, m'⟩)
    (hb : Behind m x y) (hx : m.kernel.currentPCB ≠ some x) : Behind m' x y := by
  obtain ⟨l1, l2, hq, hy, hne⟩ := hb
  rcases l1 with _ | ⟨p, l1⟩
  · rw [h.current] at hx
    exact absurd (current_eq hq) hx
  rw [List.cons_append] at hq
  obtain ⟨⟨_, v, hv⟩, _⟩ := h.step hs
  have hy' : y ∉ l1 := fun hmem => hy (by simp [hmem])
  rcases step_run hq hv with ⟨tail, hrun⟩ | ⟨_, ⟨tail, hrun⟩, _⟩ | ⟨he, q, rs, hps, hrun⟩
  · exact ⟨p :: l1, l2 ++ tail, by simpa using hrun, hy, hne⟩
  · exact ⟨l1, l2 ++ tail, by simpa using hrun, hy', hne⟩
  · have hlen := hexit he
    rw [hq] at hlen
    simp only [List.length_cons, List.length_append] at hlen
    obtain rfl : l1 = [] := List.length_eq_zero_iff.mp (by omega)
    obtain rfl : l2 = [] := List.length_eq_zero_iff.mp (by omega)
    obtain ⟨rfl, rfl⟩ := List.cons.inj hps
    exact ⟨[], [], by simpa using hrun, by simp, hne⟩

/-- A process that can run has its turn before the processes that came to the
queue after it. -/
theorem Good.no_overtaking (h : Good m) (hr : Run Machine.Step m tr m')
    (hexit : ∀ mv ∈ tr, LastExit mv) (hb : Behind m x y) (hy : m'.kernel.currentPCB = some y) :
    ∃ mv ∈ tr, mv.pre.kernel.currentPCB = some x := by
  have hrule := hr.rule (I := fun tr t => Good t ∧ ((∀ mv ∈ tr, LastExit mv) →
    (∃ mv ∈ tr, mv.pre.kernel.currentPCB = some x) ∨ Behind t x y)) ?_ ?_
  · obtain ⟨hg, hor⟩ := hrule
    rcases hor hexit with hran | ⟨l1, l2, hq, hy1, hne⟩
    · exact hran
    · rw [hg.current] at hy
      rcases l1 with _ | ⟨p, l1⟩
      · exact absurd (Option.some.inj (hy.symm.trans (current_eq hq))) hne
      · have := Option.some.inj (hy.symm.trans (current_eq hq))
        exact absurd (by simp [this]) hy1
  · exact ⟨h, fun _ => .inr hb⟩
  · rintro tr t lab u _ ⟨hg, hor⟩ hs
    refine ⟨(hg.step hs).2.good, fun hexit => ?_⟩
    rcases hor fun mv hmv => hexit mv (by simp [hmv]) with ⟨mv, hmv, hran⟩ | hb
    · exact .inl ⟨mv, by simp [hmv], hran⟩
    · by_cases hx : t.kernel.currentPCB = some x
      · exact .inl ⟨⟨t, lab, u⟩, by simp, hx⟩
      · exact .inr (hg.behind_step hs (hexit _ (by simp)) hb hx)

theorem round_robin_iff (h : Reachable m) (hr : Run Machine.Step m tr m') :
    (∀ lab n cur ps, m'.Step lab n → EndsTurn lab.1.event lab.2 →
      m'.queue .runQueue = cur :: ps → ps ≠ [] →
        (TurnOk m' n lab.1.event cur ps ↔ lab.1.event ≠ .exit ∨ ps.length = 1)) ∧
    ((∀ mv ∈ tr, LastExit mv) → ∀ x y, Behind m x y → m'.kernel.currentPCB = some y →
      ∃ mv ∈ tr, mv.pre.kernel.currentPCB = some x) :=
  ⟨fun _ _ _ _ hs he hq hne => (h.run hr).good.turnOk_iff hs he hq hne,
    fun hexit _ _ hb hy => h.good.no_overtaking hr hexit hb hy⟩

/-- Three processes are created, and the second one goes to sleep in its
turn. -/
def turnsRun : List Event :=
  [.fork true true, .fork true true, .fork true true, .timer, .call (.semCreate 0),
    .call (.semWait 0), .contextSwitch, .exit]

theorem round_robin_of_a_run : ∃ m tr m', Reachable m ∧ Run Machine.Step m tr m' ∧
    Behind m 30 29 ∧ m'.kernel.currentPCB = some 29 ∧
    ∃ mv ∈ tr, mv.pre.kernel.currentPCB = some 30 := by
  obtain ⟨m0, level, m, tr, m', h0, hs, hr, hq, hcur, hexit⟩ := exists_run_after 2 turnsRun
    (.fork true true, none)
    (fun ms a => ms.head?.map (fun mv => mv.pre.queue .runQueue) = some [31, 30, 29] ∧
      a.current = some 29 ∧
        ∀ mv ∈ ms, mv.label.1 = .exit → (mv.pre.queue .runQueue).length = 2)
    (by decide +kernel)
  have h := h0.step hs
  have hrun : m.queue .runQueue = [31, 30, 29] := by
    rcases tr with _ | ⟨mv, tr⟩
    · cases hq
    · rw [← hr.uncons.1]
      exact Option.some.inj hq
  have hb : Behind m 30 29 := ⟨[31], [29], hrun, by decide, by decide⟩
  have hy : m'.kernel.currentPCB = some 29 := (h.run hr).good.current ▸ hcur
  refine ⟨m, tr, m', h, hr, hb, hy, (round_robin_iff h hr).2 (fun mv hmv he => ?_) 30 29 hb hy⟩
  exact hexit _ (List.mem_map_of_mem hmv) he

/-- The process that ends is first, and the next two come to run in the wrong
order. -/
theorem exit_overtakes : ∃ m m', Reachable m ∧ m.queue .runQueue = [31, 30, 29] ∧
    m.Step (⟨.exit, 0⟩, none) m' ∧ m'.queue .runQueue = [29, 30] ∧
    m'.kernel.currentPCB = some 29 ∧ ¬ TurnOk m m' .exit 31 [30, 29] := by
  obtain ⟨m, hm, hq, hstop⟩ := exists_reachable [.fork true true, .fork true true, .fork true true]
    (fun a => a.queue .runQueue = [31, 30, 29] ∧ a.stopped 31 = none) (by decide +kernel)
  have hr : m.Ready ⟨.exit, 0⟩ := (hm.good.ready _).mpr ⟨31, current_eq hq, hstop⟩
  have hgoes := Machine.step_exit hm.good hr rfl 0
  rw [system_queue] at hq
  simp only [System.step, system_queue, hq] at hgoes
  obtain ⟨m', hf⟩ := hgoes
  have hrun : m'.queue .runQueue = [29, 30] := by
    rw [← system_queue, hf.system]
    simp [moveLast, hq]
  have hcur : m'.kernel.currentPCB = some 29 := by
    rw [hf.good.current, System.current, system_queue, hrun]
    rfl
  refine ⟨m, m', hm, hq, ⟨hr, hf.run⟩, hrun, hcur, fun hok => ?_⟩
  have hnext := hok.next
  rw [hcur] at hnext
  exact absurd hnext (by decide)

end dlxos
