-- Semaphores over whole runs, from the call that created the semaphore on:
-- what the count says about the signals and the waits so far, and in which
-- order waits are granted.
import DlxOs.Exec

namespace dlxos

open Function runs

/-- The process that calls `SemHandleWait` for the semaphore. -/
def System.waitsFor (a : System) (s : SemId) (e : Event) : List Pid :=
  if e = .call (.semWait s.val) then a.current.toList else []

/-- The number of calls of `SemHandleSignal` for the semaphore. -/
def Event.signals (s : SemId) (e : Event) : Nat := if e = .call (.semSignal s.val) then 1 else 0

/-- The process whose wait is granted: its call returns at once, or another
step takes it off the waiting queue. -/
def System.grants (a b : System) (s : SemId) (e : Event) (r : Return) : List Pid :=
  if e = .call (.semWait s.val) then (if r = none then [] else a.current.toList)
  else (a.queue (.sem s)).filter fun p => p ∉ b.queue (.sem s)

variable {a b : System} {s : SemId} {v : Int} {e : Event} {r : Return} {p : Pid} {c : Call}
  {m m' : Machine} {lab : Label} {tr : List (Move Machine Label)} {c0 : Int}

/-! ## One step -/

theorem sem?_val (hi : (a.sems s).inuse = true) {h : Int} :
    a.sem? h = some s ↔ h = (s.val : Int) := by
  rw [sem?_some, slot?_eq_some]
  exact ⟨fun h => h.1, fun h => ⟨h, hi⟩⟩

theorem semOp_wait (hi : (a.sems s).inuse = true) (hp : a.current = some p) :
    a.semOp s (.call (.semWait s.val)) = some (.wait p) := by
  simp [System.semOp, hp, System.callSemOp, (sem?_val hi).mpr rfl]

theorem semOp_signal (hi : (a.sems s).inuse = true) (hp : a.current = some p) :
    a.semOp s (.call (.semSignal s.val)) = some .signal := by
  simp [System.semOp, hp, System.callSemOp, (sem?_val hi).mpr rfl]

theorem semOp_none (hi : (a.sems s).inuse = true) (hw : e ≠ .call (.semWait s.val))
    (hs : e ≠ .call (.semSignal s.val)) : a.semOp s e = none := by
  cases e with
  | call c =>
    cases c with
    | semWait h =>
      have hne : h ≠ s.val := fun he => hw (he ▸ rfl)
      simp [System.semOp, System.callSemOp, sem?_val hi, hne]
    | semSignal h =>
      have hne : h ≠ s.val := fun he => hs (he ▸ rfl)
      simp [System.semOp, System.callSemOp, sem?_val hi, hne]
    | _ => simp [System.semOp, System.callSemOp]
  | _ => rfl

theorem filter_tail {ps : List Pid} (hd : (p :: ps).Nodup) :
    ((p :: ps).filter fun q => q ∉ ps) = [p] := by
  rw [List.nodup_cons] at hd
  rw [List.filter_cons_of_pos (by simpa using hd.1)]
  simp

/-- Each call is one operation on the semaphore, and the other steps are
none. -/
theorem Inv.sem_ops (h : Inv a) (hi : (a.sems s).inuse = true) (hs : a.step v e = some (b, r))
    (hmax : e = .call (.semSignal s.val) → (a.sems s).count + 1 < 2 ^ 31) :
    (a.semOp s e = none ∧ a.waitsFor s e = [] ∧ e.signals s = 0 ∧ a.grants b s e r = [] ∧
      b.semView s = a.semView s) ∨
    ∃ op, a.waitsFor s e = fifo.Sem.asks op ∧ e.signals s = fifo.Sem.signals op ∧
      a.grants b s e r = (a.semView s).grants op ∧ b.semView s = (a.semView s).apply op := by
  obtain ⟨_, _, hview⟩ := sem_step hi (h.sems s hi) hs
  by_cases hw : e = .call (.semWait s.val)
  · subst hw
    obtain ⟨p, d, res, hp, hc, rfl, rfl⟩ := step_call hs
    have hop := semOp_wait hi hp
    refine .inr ⟨.wait p, ?_, ?_, ?_, ?_⟩
    · simp [System.waitsFor, hp, fifo.Sem.asks]
    · simp [Event.signals, fifo.Sem.signals]
    · simp only [System.grants, if_true, hp, fifo.Sem.grants, System.semView]
      cases hc with
      | semSleeps hs? hn =>
        obtain rfl := Option.some.inj (((sem?_val hi).mpr rfl).symm.trans hs?)
        simp [hn, Result.value]
      | semTakes hs? hn =>
        obtain rfl := Option.some.inj (((sem?_val hi).mpr rfl).symm.trans hs?)
        simp [Int.not_le.mpr hn, Result.value]
      | unnamed ht => simp [System.callTouches, (sem?_val hi).mpr rfl] at ht
    · simpa [hop] using hview
  by_cases hsig : e = .call (.semSignal s.val)
  · subst hsig
    obtain ⟨p, d, res, hp, hc, _⟩ := step_call hs
    have hop := semOp_signal hi hp
    rw [hop] at hview
    have hview := hview fun _ => hmax rfl
    have hwait : b.queue (.sem s) = ((a.semView s).apply .signal).waiting :=
      congrArg fifo.Sem.waiting hview
    obtain ⟨home, waits, hsl⟩ := h.sleepers
    have hd := hsl.placed.nodup (.sem s)
    refine .inr ⟨.signal, ?_, ?_, ?_, hview⟩
    · simp [System.waitsFor, fifo.Sem.asks]
    · simp [Event.signals, fifo.Sem.signals]
    · simp only [System.grants, hw, if_false, hwait, fifo.Sem.grants, fifo.Sem.apply,
        System.semView]
      rcases hq : a.queue (.sem s) with _ | ⟨w, ws⟩
      · simp
      · by_cases hc : 0 < (a.sems s).count + 1
        · simp only [hc, if_true, List.take_succ_cons, List.take_zero]
          exact filter_tail (hq ▸ hd)
        · simp only [hc, if_false, List.filter_eq_nil_iff, decide_eq_true_eq, not_not]
          exact fun x hx => hx
  · have hop := semOp_none (a := a) hi hw hsig
    rw [hop] at hview
    have hsame : b.semView s = a.semView s := hview (by simp)
    have hq : b.queue (.sem s) = a.queue (.sem s) := congrArg fifo.Sem.waiting hsame
    refine .inl ⟨hop, ?_, ?_, ?_, hsame⟩
    · simp [System.waitsFor, hw]
    · simp [Event.signals, hsig]
    · simp [System.grants, hw, hq]

/-! ## Runs -/

/-- A run from the call that created the semaphore on. -/
def SemRun (c0 : Int) (s : SemId) (tr : List (Move Machine Label)) (m : Machine) : Prop :=
  ∃ m0 level m1, Reachable m0 ∧
    m0.Step (⟨.call (.semCreate c0), level⟩, some (.semCreate c0, (s.val : Int))) m1 ∧
    Run Machine.Step m1 tr m

/-- The signals so far. -/
def signals (s : SemId) (tr : List (Move Machine Label)) : Int :=
  (tr.map fun mv => (mv.label.1.event.signals s : Int)).sum

/-- The processes that called for a permit, in this order. -/
def waits (s : SemId) (tr : List (Move Machine Label)) : List Pid :=
  tr.flatMap fun mv => mv.pre.system.waitsFor s mv.label.1.event

/-- The process whose wait a step grants. -/
def grant (s : SemId) (mv : Move Machine Label) : List Pid :=
  mv.pre.system.grants mv.post.system s mv.label.1.event mv.label.2

/-- The processes whose waits were granted, in this order. -/
def granted (s : SemId) (tr : List (Move Machine Label)) : List Pid :=
  tr.flatMap fun mv => grant s mv

structure Accounted (c0 : Int) (s : SemId) (tr : List (Move Machine Label)) (m : Machine) :
    Prop where
  count : (m.kernel.sems s).count = c0 + signals s tr - (granted s tr).length
  waiting : m.queue (.sem s) ≠ [] → (m.kernel.sems s).count ≤ 0
  /-- No step grants a wait without a permit, nor two waits at once. The signal
  that grants a wait counts. -/
  permits : ∀ tr1 mv tr2, tr = tr1 ++ mv :: tr2 → grant s mv ≠ [] →
    (grant s mv).length = 1 ∧ 0 < c0 + signals s (tr1 ++ [mv]) - (granted s tr1).length
  /-- Who called is who was granted a permit, and then who waits. -/
  order : waits s tr = granted s tr ++ m.queue (.sem s)
  /-- A single wait on a semaphore that starts at `-(n-1)` takes `n` signals. -/
  single : ∀ n : Int, 1 ≤ n → c0 = -(n - 1) → ∀ p, waits s tr = [p] →
    (granted s tr = [p] ↔ n ≤ signals s tr)

theorem signals_snoc (mv : Move Machine Label) :
    signals s (tr ++ [mv]) = signals s tr + (mv.label.1.event.signals s : Int) := by
  simp [signals]

theorem granted_snoc (mv : Move Machine Label) :
    granted s (tr ++ [mv]) = granted s tr ++ grant s mv := by
  simp [granted]

theorem signals_nonneg (s : SemId) (tr : List (Move Machine Label)) : 0 ≤ signals s tr := by
  induction tr using List.reverseRecOn with
  | nil => simp [signals]
  | append_singleton tr mv ih => rw [signals_snoc]; omega

/-- A new semaphore has its first count, and nobody waits for it. -/
theorem SemRun.start {m0 m1 : Machine} {level : Level} (h : Reachable m0) (hc : -2 ^ 31 ≤ c0)
    (hc' : c0 < 2 ^ 31)
    (hs : m0.Step (⟨.call (.semCreate c0), level⟩, some (.semCreate c0, (s.val : Int))) m1) :
    Good m1 ∧ (m1.kernel.sems s).inuse = true ∧ (m1.kernel.sems s).count = c0 ∧
      m1.queue (.sem s) = [] := by
  obtain ⟨⟨_, v, hv⟩, hf⟩ := h.good.step hs
  rcases step_semCreate hv with hr | ⟨s', hu, hr, hsem, hq⟩
  · have : (s.val : Int) = SYNC_FAIL := by simpa using hr
    simp only [SYNC_FAIL] at this
    omega
  · have hval : (s.val : Int) = s'.val := by simpa using hr
    obtain rfl : s = s' := Fin.ext (by omega)
    rw [system_sems] at hsem
    refine ⟨hf.good, by rw [hsem], by rw [hsem]; exact toInt32_eq hc hc', ?_⟩
    rw [← system_queue, hq]
    exact h.good.inv.unused (q := .sem s) rfl hu

theorem Good.sem_inuse (h : Good m) (hs : m.Step lab m') (hi : (m.kernel.sems s).inuse = true) :
    (m'.kernel.sems s).inuse = true := by
  obtain ⟨_, v, hv⟩ := (h.step hs).1
  exact (h.inv.grows hv).sems s hi

/-- What one step does to the account. -/
theorem Good.account_step (h : Good m) (hi : (m.kernel.sems s).inuse = true)
    (hs : m.Step lab m')
    (hlt : lab.1.event = .call (.semSignal s.val) → (m.kernel.sems s).count + 1 < 2 ^ 31) :
    (m'.kernel.sems s).count = (m.kernel.sems s).count + lab.1.event.signals s -
      ((grant s ⟨m, lab, m'⟩).length : Int) ∧
    (grant s ⟨m, lab, m'⟩ ≠ [] → (grant s ⟨m, lab, m'⟩).length = 1 ∧
      0 < (m.kernel.sems s).count + lab.1.event.signals s) ∧
    ∀ {waited granted : List Pid}, waited = granted ++ m.queue (.sem s) →
      waited ++ m.system.waitsFor s lab.1.event =
        granted ++ grant s ⟨m, lab, m'⟩ ++ m'.queue (.sem s) := by
  obtain ⟨⟨_, v, hv⟩, _⟩ := h.step hs
  have hok := (h.inv.sems s hi).view
  simp only [grant]
  rcases h.inv.sem_ops hi hv hlt with ⟨_, hw, hsig, hgr, hview⟩ | ⟨op, hw, hsig, hgr, hview⟩
  · have hcount : (m'.kernel.sems s).count = (m.kernel.sems s).count :=
      congrArg fifo.Sem.count hview
    have hqueue : m'.queue (.sem s) = m.queue (.sem s) := congrArg fifo.Sem.waiting hview
    rw [hw, hsig, hgr, hcount, hqueue]
    exact ⟨by simp, by simp, fun hq => by simpa using hq⟩
  · rw [hw, hsig, hgr]
    refine ⟨?_, fun hne => ⟨?_, ?_⟩, fun hq => ?_⟩
    · have hcount := fifo.Sem.count_apply (m.system.semView s) op
      rw [← hview] at hcount
      exact hcount
    · have hle := fifo.Sem.grants_le_one (m.system.semView s) op
      have hpos := List.length_pos_of_ne_nil hne
      omega
    · exact fifo.Sem.grants_pos (m.system.semView s) op hne
    · have hfifo := fifo.Sem.asks_eq hok op hq
      rw [← hview] at hfifo
      exact hfifo

/-- What the steps of a run keep of the account. -/
structure SemLedger (c0 : Int) (s : SemId) (tr : List (Move Machine Label)) (m : Machine) :
    Prop where
  count : (m.kernel.sems s).count = c0 + signals s tr - (granted s tr).length
  permits : ∀ tr1 mv tr2, tr = tr1 ++ mv :: tr2 → grant s mv ≠ [] →
    (grant s mv).length = 1 ∧ 0 < c0 + signals s (tr1 ++ [mv]) - (granted s tr1).length
  order : waits s tr = granted s tr ++ m.queue (.sem s)

theorem SemLedger.start (hcount : (m.kernel.sems s).count = c0) (hq : m.queue (.sem s) = []) :
    SemLedger c0 s [] m where
  count := by simp [signals, granted, hcount]
  permits := by
    intro tr1 mv tr2 he
    simp at he
  order := by simp [waits, granted, hq]

theorem SemLedger.step (h : SemLedger c0 s tr m) (hg : Good m) (hi : (m.kernel.sems s).inuse = true)
    (hs : m.Step lab m')
    (hlt : lab.1.event = .call (.semSignal s.val) → (m.kernel.sems s).count + 1 < 2 ^ 31) :
    SemLedger c0 s (tr ++ [⟨m, lab, m'⟩]) m' := by
  obtain ⟨hcount, hgrant, horder⟩ := hg.account_step hi hs hlt
  have hbefore := h.count
  refine ⟨?_, ?_, ?_⟩
  · rw [hcount, hbefore, signals_snoc, granted_snoc, List.length_append]
    push_cast
    omega
  · intro tr1 mv tr2 he hne
    rcases List.eq_nil_or_concat tr2 with rfl | ⟨tr3, x, rfl⟩
    · obtain ⟨rfl, hmv⟩ := List.append_inj' he rfl
      obtain rfl : ⟨m, lab, m'⟩ = mv := by simpa using hmv
      obtain ⟨hone, hpos⟩ := hgrant hne
      refine ⟨hone, ?_⟩
      rw [signals_snoc]
      simp only
      omega
    · rw [List.concat_eq_append, ← List.cons_append, ← List.append_assoc] at he
      obtain ⟨rfl, _⟩ := List.append_inj' he rfl
      exact h.permits tr1 mv tr3 rfl hne
  · have hsnoc : waits s (tr ++ [⟨m, lab, m'⟩]) =
        waits s tr ++ m.system.waitsFor s lab.1.event := by
      simp [waits]
    rw [hsnoc, granted_snoc]
    exact horder h.order

theorem SemRun.ledger (h : SemRun c0 s tr m) (hc : -2 ^ 31 ≤ c0)
    (hmax : c0 + signals s tr < 2 ^ 31) :
    Good m ∧ (m.kernel.sems s).inuse = true ∧ SemLedger c0 s tr m := by
  obtain ⟨m0, level, m1, h0, hs0, hrun⟩ := h
  have hc' : c0 < 2 ^ 31 := by have := signals_nonneg s tr; omega
  obtain ⟨hg1, hi1, hcount1, hq1⟩ := SemRun.start h0 hc hc' hs0
  have hrule := hrun.rule (I := fun tr m => Good m ∧ (m.kernel.sems s).inuse = true ∧
    (c0 + signals s tr < 2 ^ 31 → SemLedger c0 s tr m)) ?_ ?_
  · exact ⟨hrule.1, hrule.2.1, hrule.2.2 hmax⟩
  · exact ⟨hg1, hi1, fun _ => .start hcount1 hq1⟩
  · rintro tr t lab u _ ⟨hg, hi, hledger⟩ hs
    refine ⟨(hg.step hs).2.good, hg.sem_inuse hs hi, fun hmax => ?_⟩
    rw [signals_snoc] at hmax
    simp only at hmax
    have hbefore := hledger (by omega)
    refine hbefore.step hg hi hs fun he => ?_
    have hcount := hbefore.count
    simp only [Event.signals, he, if_true] at hmax
    omega

/-- A wait was granted by a step, and then the signals up to it are enough. -/
theorem SemLedger.enough (h : SemLedger c0 s tr m) {n : Int} (hn : c0 = -(n - 1))
    (hgr : granted s tr = [p]) : n ≤ signals s tr := by
  obtain ⟨mv, hmv, hpm⟩ := List.mem_flatMap.mp (show p ∈ granted s tr by simp [hgr])
  obtain ⟨tr1, tr2, htr⟩ := List.append_of_mem hmv
  have hpos := (h.permits tr1 mv tr2 htr (List.ne_nil_of_mem hpm)).2
  have hrest := signals_nonneg s tr2
  have happ : signals s tr = signals s (tr1 ++ [mv]) + signals s tr2 := by
    rw [htr]
    simp [signals, Int.add_assoc]
  omega

/-- Of a single wait, either it was granted or it waits. -/
theorem SemLedger.single (h : SemLedger c0 s tr m) (hp : waits s tr = [p]) :
    granted s tr = [p] ∨ granted s tr = [] ∧ m.queue (.sem s) = [p] := by
  have horder := h.order
  rw [hp] at horder
  rcases hgt : granted s tr with _ | ⟨x, xs⟩
  · rw [hgt] at horder
    exact .inr ⟨rfl, horder.symm⟩
  · rw [hgt] at horder
    obtain ⟨rfl, hxs⟩ := List.cons.inj horder
    obtain ⟨rfl, _⟩ := List.append_eq_nil_iff.mp hxs.symm
    exact .inl rfl

theorem semaphore_accounting (h : SemRun c0 s tr m) (hc : -2 ^ 31 ≤ c0)
    (hmax : c0 + signals s tr < 2 ^ 31) : Accounted c0 s tr m := by
  obtain ⟨hg, hi, hledger⟩ := h.ledger hc hmax
  have hwaiting : m.queue (.sem s) ≠ [] → (m.kernel.sems s).count ≤ 0 := (hg.inv.sems s hi).view
  refine ⟨hledger.count, hwaiting, hledger.permits, hledger.order, fun n _ hn p hp => ?_⟩
  refine ⟨hledger.enough hn, fun hsig => ?_⟩
  rcases hledger.single hp with hgr | ⟨hgr, hq⟩
  · exact hgr
  · have hcount := hledger.count
    have hle := hwaiting (by simp [hq])
    rw [hgr, List.length_nil] at hcount
    omega

/-- A semaphore that two signals open for its one waiter. -/
def semaphoreRun : List Event :=
  [.fork true true, .fork true true, .call (.semCreate (-1)), .call (.semWait 0),
    .call (.semSignal 0), .timer, .call (.semSignal 0)]

theorem semaphore_accounting_of_a_run : ∃ tr m, SemRun (-1) 0 tr m ∧ waits 0 tr = [31] ∧
    granted 0 tr = [31] ∧ signals 0 tr = 2 ∧ Accounted (-1) 0 tr m := by
  obtain ⟨m0, level, m1, tr, m, h0, hs, hr, hw, hgr, hsig⟩ := exists_run_after 2 semaphoreRun
    (.call (.semCreate (-1)), some (.semCreate (-1), 0))
    (fun ms _ => (ms.flatMap fun mv => mv.pre.waitsFor 0 mv.label.1) = [31] ∧
      (ms.flatMap fun mv => mv.pre.grants mv.post 0 mv.label.1 mv.label.2) = [31] ∧
      ((ms.map fun mv => (mv.label.1.signals 0 : Int)).sum = 2)) (by decide +kernel)
  have h : SemRun (-1) 0 tr m := ⟨m0, level, m1, h0, hs, hr⟩
  have hsignals : signals 0 tr = 2 := by
    simpa [signals, systemMoves, Function.comp_def] using hsig
  refine ⟨tr, m, h, ?_, ?_, hsignals, semaphore_accounting h (by omega) (by omega)⟩
  · simpa [waits, systemMoves, List.flatMap_map] using hw
  · simpa [granted, grant, systemMoves, List.flatMap_map] using hgr

end dlxos
