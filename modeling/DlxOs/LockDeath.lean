-- Locks and the end of processes. A lock keeps the number of its owner, and
-- numbers are used again, so a process that ends with a lock leaves it to a
-- later process.
import DlxOs.Locks

namespace dlxos

open Function runs

variable {a b : System} {v : Int} {e : Event} {r : Return} {p : Pid} {l : LockId}
  {m m' m0 : Machine} {lab : Label} {tr : List (Move Machine Label)} {bt : Boot}

/-! ## One step -/

/-- Only the process that ends becomes free. -/
theorem step_frees (hs : a.step v e = some (b, r)) (hp : p ∉ a.queue .freepcbs)
    (hb : p ∈ b.queue .freepcbs) : e = .exit ∧ a.current = some p := by
  by_cases ht : KQueue.freepcbs ∈ a.touches e
  swap
  · have hsame : b.queue .freepcbs = a.queue .freepcbs := System.Same.step hs ht
    rw [hsame] at hb
    exact absurd hb hp
  cases System.steps hs with
  | @exit x y ys hq =>
    have hmem : p ∈ a.queue .freepcbs ++ [x] := by simpa [moveLast] using hb
    obtain rfl : p = x := by simpa [hp] using hmem
    exact ⟨rfl, current_eq hq⟩
  | @forkFails x xs hq =>
    have hmem : p ∈ xs ++ [x] := by simpa [moveLast, hq] using hb
    rw [hq] at hp
    exact absurd (by simpa [or_comm] using hmem) hp
  | @fork _ _ x xs hq hl =>
    have hmem : p ∈ xs := by simpa [moveLast, hq] using hb
    rw [hq] at hp
    exact absurd (List.mem_cons_of_mem x hmem) hp
  | call => exact absurd ht (free_not_touched a _)
  | resume =>
    simp only [System.touches] at ht
    split at ht <;> simp at ht
  | timer | contextSwitch => simp [System.touches] at ht

/-- The process that ends is free. -/
theorem exit_frees (hs : a.step v .exit = some (b, r)) (hp : a.current = some p) :
    p ∈ b.queue .freepcbs := by
  cases System.steps hs with
  | exit hq =>
    obtain rfl := Option.some.inj ((current_eq hq).symm.trans hp)
    simp [moveLast]

/-- A process becomes the owner while it runs, or while it waits. -/
theorem Inv.obtains_step (h : Inv a) (hl : (a.locks l).inuse = true)
    (hs : a.step v e = some (b, r)) (hb : b.owner l = some p) (ha : a.owner l ≠ some p) :
    e ≠ .exit ∧ (p ∈ a.queue .runQueue ∨ p ∈ a.queue .waitQueue) := by
  obtain ⟨hview, _, _⟩ := lock_step hl (h.locks l hl).pid hs
  have hb' : (b.lockView l).owner = some p := hb
  rcases hop : a.lockOp l e with _ | op
  · rw [hview, hop] at hb'
    exact absurd hb' ha
  · rw [hview, hop] at hb'
    have hne : e ≠ .exit := by
      rintro rfl
      cases hop
    refine ⟨hne, ?_⟩
    rcases fifo.Lock.owner_of_apply hb' with h1 | rfl | hw
    · exact absurd h1 ha
    · obtain ⟨x, hx, hor⟩ := lockOp_current hop
      obtain rfl : x = p := by
        rcases hor with he | he
        · exact (fifo.LockOp.acquire.inj he).symm
        · cases he
      obtain ⟨ps, hq⟩ := current_cons hx
      exact .inl (by simp [hq])
    · obtain ⟨home, waits, hsl⟩ := h.sleepers
      have hwaits := (hsl.placed.mem_wait (q := .lock l) rfl p).mp hw
      refine .inr ((hsl.placed.mem_proc rfl p).mpr ((hsl.waiting p).mpr ?_))
      rw [hwaits]
      simp

/-! ## Runs -/

/-- The process ends in this step. -/
def Ends (p : Pid) (mv : Move Machine Label) : Prop :=
  mv.label.1.event = .exit ∧ mv.pre.kernel.currentPCB = some p

/-- Process `p` became the owner of the lock in a step, and it has not ended
since. -/
def Obtained (l : LockId) (p : Pid) (tr : List (Move Machine Label)) : Prop :=
  ∃ tr1 mv tr2, tr = tr1 ++ mv :: tr2 ∧ p ∈ mv.pre.system.obtains mv.post.system l ∧
    ∀ mv' ∈ tr2, ¬ Ends p mv'

structure OwnersOk (tr : List (Move Machine Label)) (m : Machine) : Prop where
  owner : ∀ l, (m.kernel.locks l).inuse = true → (m.kernel.locks l).pid = -1 ∨
    ∃ p : Pid, (m.kernel.locks l).pid = p.val ∧ m.Live p ∧ Obtained l p tr
  /-- A process that is taken for the owner has obtained the lock itself. -/
  test : ∀ l p, (m.kernel.locks l).inuse = true → m.kernel.currentPCB = some p →
    (m.kernel.locks l).pid = p.val → Obtained l p tr

/-- No process ends in this step while a lock has its number. -/
def FreeExit (mv : Move Machine Label) : Prop :=
  ∀ p, Ends p mv → ∀ l, (mv.pre.kernel.locks l).inuse = true →
    (mv.pre.kernel.locks l).pid ≠ p.val

theorem Obtained.snoc {mv : Move Machine Label} (h : Obtained l p tr) (hno : ¬ Ends p mv) :
    Obtained l p (tr ++ [mv]) := by
  obtain ⟨tr1, x, tr2, rfl, hobt, hends⟩ := h
  refine ⟨tr1, x, tr2 ++ [mv], by simp, hobt, fun y hy => ?_⟩
  rcases List.mem_append.mp hy with hy | hy
  · exact hends y hy
  · obtain rfl : y = mv := by simpa using hy
    exact hno

theorem owner_pid {m : Machine} : m.system.owner l = some p ↔ (m.kernel.locks l).pid = p.val :=
  slot?_eq_some

/-- What one step does to the owner of a lock. -/
theorem Good.owner_step (h : Good m) (hs : m.Step lab m') (hfree : FreeExit ⟨m, lab, m'⟩)
    (hown : ∀ p, (m.kernel.locks l).inuse = true → (m.kernel.locks l).pid = p.val →
      m.Live p ∧ Obtained l p tr)
    (hl : (m'.kernel.locks l).inuse = true) (hp : (m'.kernel.locks l).pid = p.val) :
    m'.Live p ∧ Obtained l p (tr ++ [⟨m, lab, m'⟩]) := by
  obtain ⟨⟨_, v, hv⟩, hf⟩ := h.step hs
  have hlive : m.Live p → ¬ Ends p ⟨m, lab, m'⟩ → m'.Live p := by
    intro hlive hno
    rw [hf.good.live_iff]
    intro hmem
    obtain ⟨he, hcur⟩ := step_frees hv ((h.live_iff p).mp hlive) hmem
    exact hno ⟨he, h.current ▸ hcur⟩
  rcases hi : (m.kernel.locks l).inuse with _ | _
  · -- a new lock is free
    obtain ⟨_, _, hlock, _⟩ := lock_created hv hi hl
    rw [system_locks] at hlock
    rw [hlock] at hp
    simp only at hp
    omega
  · by_cases hsame : (m.kernel.locks l).pid = p.val
    · obtain ⟨hlv, hobt⟩ := hown p hi hsame
      have hno : ¬ Ends p ⟨m, lab, m'⟩ := fun hends => hfree p hends l hi hsame
      exact ⟨hlive hlv hno, hobt.snoc hno⟩
    · have hne : m.system.owner l ≠ some p := fun ho => hsame (owner_pid.mp ho)
      have hnew := owner_pid.mpr hp
      obtain ⟨he, hmem⟩ := h.inv.obtains_step hi hv hnew hne
      refine ⟨hlive hmem fun hends => he hends.1, tr, ⟨m, lab, m'⟩, [], rfl, ?_, by simp⟩
      have hdiff : m'.system.owner l ≠ m.system.owner l := by
        rw [hnew]
        exact hne.symm
      rw [System.obtains, if_neg hdiff, hnew]
      simp

/-- Where no process ends with a lock, each owner is alive, and has obtained
the lock itself. -/
theorem Run.owners (hb : boot bt = .ok m0) (hr : Run Machine.Step m0 tr m)
    (hfree : ∀ mv ∈ tr, FreeExit mv) (hl : (m.kernel.locks l).inuse = true)
    (hp : (m.kernel.locks l).pid = p.val) : m.Live p ∧ Obtained l p tr := by
  have hrule := hr.rule (I := fun tr t => (∀ mv ∈ tr, FreeExit mv) → ∀ p,
    (t.kernel.locks l).inuse = true → (t.kernel.locks l).pid = p.val →
      t.Live p ∧ Obtained l p tr) ?_ ?_
  · exact hrule hfree p hl hp
  · intro _ p hi
    obtain ⟨m1, hb1, _, hsys, _⟩ := boot_good bt
    obtain rfl : m0 = m1 := Except.ok.inj (hb.symm.trans hb1)
    rw [← system_locks, hsys] at hi
    cases hi
  · intro tr t lab u ht ih hs hfree p hi hpid
    have hg : Good t := Reachable.good ⟨bt, m0, tr, hb, ht⟩
    exact hg.owner_step hs (hfree _ (by simp)) (ih fun mv hmv => hfree mv (by simp [hmv])) hi hpid

/-- A process that ends with a lock is no longer there, and the lock still has
its number. -/
theorem Good.not_ok_of_exit (h : Good m) (hs : m.Step lab m') (hends : Ends p ⟨m, lab, m'⟩)
    (hi : (m.kernel.locks l).inuse = true) (hp : (m.kernel.locks l).pid = p.val)
    (tr : List (Move Machine Label)) : ¬ OwnersOk tr m' := by
  intro hok
  obtain ⟨⟨_, v, hv⟩, hf⟩ := h.step hs
  obtain ⟨he, hcur⟩ := hends
  simp only at he hcur
  simp only [he] at hv
  have hsame : m'.kernel.locks l = m.kernel.locks l :=
    (System.Same.step (q := .lock l) hv (by simp [System.touches])).1
  rcases hok.owner l (by rw [hsame, hi]) with hnone | ⟨q, hq, hlive, _⟩
  · rw [hsame, hp] at hnone
    omega
  · rw [hsame, hp] at hq
    obtain rfl : p = q := Fin.ext (by omega)
    exact (hf.good.live_iff p).mp hlive (exit_frees hv (h.current ▸ hcur))

theorem lock_owners_alive_iff (hb : boot bt = .ok m0) (hr : Run Machine.Step m0 tr m) :
    (∀ tr1 tr2 m1, tr = tr1 ++ tr2 → Run Machine.Step m0 tr1 m1 → OwnersOk tr1 m1) ↔
      ∀ mv ∈ tr, FreeExit mv := by
  constructor
  · rintro hall mv hmv p hends l hi hp
    obtain ⟨tr1, tr2, rfl⟩ := List.append_of_mem hmv
    obtain ⟨t, hr1, hr2⟩ := hr.split
    obtain ⟨rfl, hs, _⟩ := hr2.uncons
    have hg : Good mv.pre := Reachable.good ⟨bt, m0, tr1, hb, hr1⟩
    have hok := hall (tr1 ++ [mv]) tr2 mv.post (by simp) (hr1.snoc hs)
    exact hg.not_ok_of_exit hs hends hi hp _ hok
  · rintro hfree tr1 tr2 m1 rfl hr1
    have hfree1 : ∀ mv ∈ tr1, FreeExit mv := fun mv hmv => hfree mv (by simp [hmv])
    have hown := fun l p => Run.owners (l := l) (p := p) hb hr1 hfree1
    have hg : Good m1 := Reachable.good ⟨bt, m0, tr1, hb, hr1⟩
    refine ⟨fun l hi => ?_, fun l p hi _ hp => (hown l p hi hp).2⟩
    rcases (hg.inv.locks l hi).pid with hnone | ⟨p, hp⟩
    · exact .inl hnone
    · exact .inr ⟨p, hp, hown l p hi hp⟩

/-- A process ends, and its number is not put into the lock again. -/
theorem not_obtained {x : Move Machine Label} (k : Nat) (hx : tr[k]? = some x) (hends : Ends p x)
    (hno : ∀ mv ∈ tr.drop k, p ∉ mv.pre.system.obtains mv.post.system l) : ¬ Obtained l p tr := by
  rintro ⟨tr1, mv, tr2, rfl, hobt, hafter⟩
  by_cases hk : k ≤ tr1.length
  · refine hno mv ?_ hobt
    rw [List.drop_append_of_le_length hk]
    simp
  · rw [List.getElem?_append_right (by omega)] at hx
    obtain ⟨j, hj⟩ : ∃ j, k - tr1.length = j + 1 := ⟨k - tr1.length - 1, by omega⟩
    rw [hj, List.getElem?_cons_succ] at hx
    exact hafter x (List.mem_of_getElem? hx) hends

/-- The number of a process that ended with a lock comes round again. -/
def recycleRun : List Event :=
  [.fork true true, .fork true true, .fork true true, .call .lockCreate, .call (.lockAcquire 0),
    .exit] ++ List.replicate 29 (.fork true false) ++ [.fork true true, .timer, .timer]

theorem lock_of_an_earlier_process : ∃ m0 tr m, boot Boot.small = .ok m0 ∧
    Run Machine.Step m0 tr m ∧ m.kernel.currentPCB = some 31 ∧
    (m.kernel.locks 0).inuse = true ∧ (m.kernel.locks 0).pid = 31 ∧ ¬ Obtained 0 31 tr ∧
    ¬ OwnersOk tr m := by
  obtain ⟨m0, tr, m, hb, hr, hends, hno, hcur, hi, hp⟩ := exists_run recycleRun
    (fun ms a => (ms[5]?.map fun mv => (mv.label.1, mv.pre.current)) = some (.exit, some 31) ∧
      (∀ mv ∈ ms.drop 5, 31 ∉ mv.pre.obtains mv.post 0) ∧ a.current = some 31 ∧
      (a.locks 0).inuse = true ∧ (a.locks 0).pid = 31) (by decide +kernel)
  have hcur' : m.kernel.currentPCB = some 31 :=
    (Reachable.good ⟨_, m0, tr, hb, hr⟩).current ▸ hcur
  have hnot : ¬ Obtained 0 31 tr := by
    rcases hx : tr[5]? with _ | x
    · simp [systemMoves, hx] at hends
    · refine not_obtained 5 hx ?_ fun mv hmv => hno ⟨_, (mv.label.1.event, mv.label.2), _⟩ ?_
      · obtain ⟨he, hc⟩ : x.label.1.event = .exit ∧ x.pre.system.current = some 31 := by
          simpa [systemMoves, hx] using hends
        have hg : Good x.pre := ((Reachable.start hb).mem hr (List.mem_of_getElem? hx)).good
        exact ⟨he, hg.current ▸ hc⟩
      · rw [systemMoves, ← List.map_drop]
        exact List.mem_map_of_mem hmv
  exact ⟨m0, tr, m, hb, hr, hcur', hi, hp, hnot, fun hok => hnot (hok.test 0 31 hi hcur' hp)⟩

/-- A process hands its lock on before it ends. -/
def releaseRun : List Event :=
  [.fork true true, .fork true true, .call .lockCreate, .call (.lockAcquire 0), .timer,
    .call (.lockAcquire 0), .call (.lockRelease 0), .exit, .resume]

theorem lock_owners_of_a_run : ∃ m0 tr m, boot Boot.small = .ok m0 ∧
    Run Machine.Step m0 tr m ∧ (m.kernel.locks 0).pid = 30 ∧ OwnersOk tr m := by
  obtain ⟨m0, tr, m, hb, hr, hp, hfree⟩ := exists_run releaseRun
    (fun ms a => (a.locks 0).pid = 30 ∧ ∀ mv ∈ ms, mv.label.1 = .exit → mv.pre.current = some 31 ∧
      ∀ l, (mv.pre.locks l).inuse = true → (mv.pre.locks l).pid ≠ 31) (by decide +kernel)
  refine ⟨m0, tr, m, hb, hr, hp,
    (lock_owners_alive_iff hb hr).mpr (fun mv hmv p hends l hi hpid => ?_) tr [] m (by simp) hr⟩
  obtain ⟨hcur, hno⟩ := hfree _ (List.mem_map_of_mem hmv) hends.1
  have hg : Good mv.pre := ((Reachable.start hb).mem hr hmv).good
  obtain rfl : p = 31 := by
    have hcur' : mv.pre.system.current = some 31 := hcur
    rw [← hg.current, hends.2] at hcur'
    exact Option.some.inj hcur'
  exact hno l hi hpid

end dlxos
