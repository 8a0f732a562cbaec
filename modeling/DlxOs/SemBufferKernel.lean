-- The producers and consumers of `q3` on the kernel. The kernel does not stop
-- them before all of them have ended, and what they leave in the page is what
-- the producers had.
import DlxOs.SemBufferEnds
import DlxOs.UserlandEnds
import DlxOs.UserlandExec

namespace dlxos.q3

open Function runs monitor

variable {N : Nat} {s : State (Proc N) L Buffer Empty Sem} {p : Proc N} {B : Binding Empty Sem}
  {w w' : World (Proc N) L Buffer} {tr : List (Move (World (Proc N) L Buffer) (Option Label))}

/-- A process gives a semaphore no more than one unit for each of its characters. -/
theorem asks_ge {l : L p} (h : Within p l) (m : Sem) : -10 ≤ asks m p l := by
  rcases p with _ | i | i
  · cases m
    · cases l <;> simp [asks]
    · simp [asks, asked]
    · simp [asks]
  · have hle := h.1
    simp only [ITEM_SIZE] at hle
    cases m <;> simp only [asks, asked] <;> split <;> omega
  · have hle := h.1
    simp only [ITEM_SIZE] at hle
    cases m <;> simp only [asks, asked] <;> split <;> omega

/-- With as many processes as the table has room for, the semaphores stay small. -/
theorem bounded (hN : FitsTable N) : Bounded (program N) := by
  intro s h m
  refine count_small hN (sem_law h m) ?_ fun p => ?_
  · cases m <;> simp only [program, procsCompleted, BUFFER_SIZE] <;> omega
  · have hasks := asks_ge (within h p) m
    unfold State.got
    split <;> omega

/-- In every run of the kernel, the characters are removed in the order in which
they were inserted, and the buffer never holds more of them than it has cells. -/
theorem buffer_on_the_kernel (hN : FitsTable N) (h0 : w.Starts (program N) B)
    (hr : Run (World.Step (program N) B) w tr w') :
    w'.mem.removed <+: w'.mem.inserted ∧
      w'.mem.inserted.length ≤ w'.mem.removed.length + BUFFER_SIZE := by
  obtain ⟨_, s, hs, hw⟩ := h0.run (bounded hN) hr
  have hmem : s.shared.mem = w'.mem := congrArg Shared.mem hw.shared
  have hhist := (accounts N).history (fun s hs p => remove_finds hs) hs
  rw [← hmem]
  refine ⟨hhist.fifo, ?_⟩
  rw [hhist.inserted, hhist.removed, List.length_map, List.length_map, List.length_range,
    List.length_range]
  exact capacity hs

/-- While only the programs run, the kernel never stops them: the one entry that
ends the simulation is the exit of the last process, once every character has
gone through the buffer. -/
theorem programs_on_the_kernel (hN : FitsTable N) (h0 : w.Starts (program N) B)
    (hr : Run (World.Step (program N) B) w tr w') (ha : w'.Alone (program N)) {e : Entry}
    (hready : w'.machine.Ready e) (he : w'.Enters (program N) B e.event) {h : Halt}
    (hend : w'.machine.step e = .error h) :
    e.event = .exit ∧ h = .exitsim "No runnable processes - exiting!" ∧
      (∀ p, (program N).op p (w'.loc p) = .done) ∧ Delivered N w'.mem := by
  have hlives := h0.lives (bounded hN) hr
  obtain ⟨hok, s, hs, hw⟩ := h0.run (bounded hN) hr
  have hmem : s.shared.mem = w'.mem := congrArg Shared.mem hw.shared
  obtain ⟨hexit, rfl, hfin⟩ := hw.finished (fun s hs hstuck => stuck_finished hs hstuck) hok hs
    hlives ha hready he hend
  refine ⟨hexit, rfl, fun p => ?_, hmem ▸ delivered hs hfin⟩
  obtain ⟨l, hl, hop⟩ := hfin p
  rw [← hw.locs, locs_ready hl]
  exact hop

/-! ## A run -/

instance (p : Proc N) : DecidableEq (L p) :=
  match p with
  | .makeprocs => inferInstanceAs (DecidableEq ParentLine)
  | .producer _ => inferInstanceAs (DecidableEq (Loc ProducerLine))
  | .consumer _ => inferInstanceAs (DecidableEq (Loc ConsumerLine))

instance : Fintype Sem where
  elems := {.s_procs_completed, .s_fullslots, .s_emptyslots}
  complete m := by cases m <;> decide

/-- The handles that `makeprocs` gets on a kernel without other objects. -/
def handles : Binding Empty Sem where
  lock := 0
  cond := nofun
  sem
    | .s_procs_completed => 0
    | .s_fullslots => 1
    | .s_emptyslots => 2
  cond_inj := nofun
  sem_inj := by rintro (_ | _ | _) (_ | _ | _) h <;> first | rfl | cases h

/-- `makeprocs` makes its objects. -/
def setup : List Event := [.fork true true, .call (.semCreate (procsCompleted 1)),
  .call .lockCreate, .call (.semCreate 0), .call (.semCreate BUFFER_SIZE)]

/-- `makeprocs` makes one pair and waits for it. The producer runs to its end,
and then the consumer. -/
def order : List (Turn (Proc 1)) :=
  [.fork, .fork, .start .makeprocs, .go .makeprocs] ++
    [.start (.producer 0)] ++ List.replicate 52 (.go (.producer 0)) ++
    [.start (.consumer 0)] ++ List.replicate 52 (.go (.consumer 0)) ++ [.resume]

/-- One pair: all but `makeprocs` have ended. -/
theorem exists_kernel_run : ∃ (w : World (Proc 1) L Buffer) (tr : _)
    (w' : World (Proc 1) L Buffer),
    w.Starts (program 1) handles ∧ Run (World.Step (program 1) handles) w tr w' ∧
    w'.machine.queue .runQueue = [31] ∧ w'.machine.queue .waitQueue = [] ∧
    w'.machine.system.stopped 31 = none ∧ w'.pid .makeprocs = some 31 ∧
    (∀ p, (program 1).op p (w'.loc p) = .done) ∧ w'.mem.inserted = BUF_ITEM.toList := by
  obtain ⟨w, tr, w', h0, hr, hq⟩ := exists_starts_run (g := program 1) (B := handles) setup order
    (fun _ u => decide (u.system.queue .runQueue = [31] ∧ u.system.queue .waitQueue = [] ∧
      u.system.stopped 31 = none ∧ u.pid .makeprocs = some 31 ∧
      (∀ p, ((program 1).op p (u.loc p) matches .done) = true) ∧
      u.mem.inserted = BUF_ITEM.toList)) (by decide +kernel)
  obtain ⟨hrun, hwait, hst, hpid, hd, hmem⟩ := of_decide_eq_true hq
  refine ⟨w, tr, w', h0, hr, hrun, hwait, hst, hpid, fun p => ?_, hmem⟩
  have hd := hd p
  split at hd
  · assumption
  · cases hd

theorem fits_one : FitsTable 1 := by
  unfold FitsTable
  decide

/-- The characters of the run. -/
theorem characters_of_a_kernel_run : ∃ w' : World (Proc 1) L Buffer,
    w'.mem.inserted = BUF_ITEM.toList ∧ w'.mem.removed <+: w'.mem.inserted := by
  obtain ⟨w, tr, w', h0, hr, _, _, _, _, _, hmem⟩ := exists_kernel_run
  exact ⟨w', hmem, (buffer_on_the_kernel fits_one h0 hr).1⟩

/-- The last exit of the pair. -/
theorem end_of_the_pair : ∃ w' : World (Proc 1) L Buffer,
    w'.machine.step ⟨.exit, 0⟩ = .error (.exitsim "No runnable processes - exiting!") ∧
    Delivered 1 w'.mem := by
  obtain ⟨w, tr, w', h0, hr, hq, hwait, hst, hk, hd, _⟩ := exists_kernel_run
  obtain ⟨hok, _⟩ := h0.run (bounded fits_one) hr
  obtain ⟨halone, hready, henters, hend⟩ := hok.last_exit hq hwait hst hk hd
  exact ⟨w', hend, (programs_on_the_kernel fits_one h0 hr halone hready henters hend).2.2.2⟩

end dlxos.q3
