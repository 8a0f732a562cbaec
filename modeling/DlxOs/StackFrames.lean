-- The entries of the kernel, and the frames on the stacks of the processes. The
-- kernel says which process goes on, and counts with one frame for a process
-- that does not run and one for a call that is not over. A handler that allows
-- interrupts has one too.
import DlxOs.ContextRuns
import DlxOs.Exec

namespace dlxos

open Function runs

variable {L : context.Layout Pid} {s s' : context.State Pid} {ev : context.Event Pid}
  {evs evs' pass : List (context.Event Pid)} {P : context.Proc} {p q : Pid} {m m' : Machine}
  {lab : Label} {a b : System} {v : Int} {e : Event} {r : Return} {c : Call} {t : context.Latch}
  {w : dlx.Word} {k : Nat} {cur : Option Pid} {n : Pid → Option Nat} {f f' : Pid → Bool}

/-! ## Counting frames -/

/-- How many frames a process has. -/
def frameCount (s : context.State Pid) (p : Pid) : Option Nat :=
  (s.procs p).map fun P => P.saved.length

def countStep (n : Pid → Option Nat) : context.Event Pid → Pid → Option Nat
  | .interrupt p _ => update n p ((n p).map (· + 1))
  | .intrreturn p => update n p ((n p).map (· - 1))
  | .fork q => update n q (some 1)
  | .exit q => update n q none
  | _ => n

/-- The process that `ProcessSchedule` chose last. -/
def currentStep : Option Pid → context.Event Pid → Option Pid
  | _, .switch q => some q
  | x, _ => x

/-- The word at `_currentPCB`. -/
def pcbStep (L : context.Layout Pid) (w : dlx.Word) : context.Event Pid → dlx.Word
  | .switch q => L.pcb q
  | _ => w

theorem frameCount_update (Q : Option context.Proc) (w : dlx.Machine) :
    frameCount ⟨w, update s.procs p Q⟩ =
      update (frameCount s) p (Q.map fun P => P.saved.length) := by
  funext q
  unfold frameCount
  by_cases hq : q = p
  · subst hq
    simp
  · simp [hq]

theorem frameCount_step (h : context.Step L s ev s') :
    frameCount s' = countStep (frameCount s) ev := by
  cases h with
  | user | kernel | switch => rfl
  | interrupt _ hp | intrreturn _ _ hp =>
    rw [frameCount_update, countStep]
    simp [frameCount, hp, context.push]
  | setResult _ hp =>
    rw [frameCount_update]
    simp only [Option.map_some, List.length_modifyHead]
    exact update_eq_self_iff.mpr (by simp [frameCount, hp])
  | setPtsize _ hp =>
    rw [frameCount_update]
    simp only [Option.map_some, context.Proc.setPtsize, List.length_map]
    exact update_eq_self_iff.mpr (by simp [frameCount, hp])
  | fork => exact frameCount_update ..
  | exit => exact frameCount_update none _

/-- An interrupt writes to the stack of its process and to its PCB. -/
theorem interrupt_mem (h : context.Inv L s) (hcur : s.m.mem L.currentPCB = L.pcb p)
    (hp : s.procs p = some P) (hroom : context.SystemMode s.m → context.Room L p P.area s.m) :
    (context.intrhandler L.currentPCB (context.latch s.m t)).mem L.currentPCB =
      s.m.mem L.currentPCB := by
  have hproc := h.proc p P hp
  have howns {o : dlx.Word} (ho : o ∈ context.pushedOffsets) :
      P.area.Owns (context.entryStack L.currentPCB (context.latch s.m t) - 340 + o) :=
    (context.push_base h hcur hp hroom).owns List.mem_cons_self ho
  obtain ⟨-, hmem⟩ := context.intrhandler_spec rfl (fun o ho => (hproc.kernel_ne (howns ho)).1)
    fun o ho => by
      rw [context.latch_mem, hcur]
      exact (hproc.kernel_ne (howns ho)).2.1
  rw [hmem, dlx.updates_append, dlx.updates_of_not_mem, dlx.updates_offsets_of_ne]
  · rfl
  · exact fun w hw => (hproc.kernel_ne (howns (context.pushed_offset hw))).1
  · rw [context.latch_mem, hcur]
    simpa using (L.currentPCB_ne p).1

theorem setResult_mem {v : dlx.Word} (h : context.Inv L s) (hmode : context.SystemMode s.m)
    (hp : s.procs p = some P) :
    (context.ProcessSetResult (L.pcb p) v s.m).mem L.currentPCB = s.m.mem L.currentPCB := by
  have hproc := h.proc p P hp
  obtain ⟨x, l, hsaved⟩ := List.exists_cons_of_ne_nil (h.saved_ne_nil hmode hp)
  have hx : x ∈ P.saved := by simp [hsaved]
  have h44 : (44 : dlx.Word) ∈ context.pushedOffsets := by
    simp [context.pushedOffsets, context.intRegs]
  have hr1 : BitVec.ofNat 32 (4 * (context.PROCESS_STACK_IREG + 1)) = 44 := rfl
  unfold context.ProcessSetResult
  rw [hproc.current x (by simp [hsaved]), hr1]
  apply dlx.updates_of_not_mem
  simpa using (hproc.kernel_ne (hproc.stacked.owns hx h44)).1

theorem intrreturn_mem (h : context.Inv L s) (hmode : context.SystemMode s.m)
    (hcur : s.m.mem L.currentPCB = L.pcb p) (hp : s.procs p = some P) :
    (context.intrreturn L.currentPCB s.m).mem L.currentPCB = s.m.mem L.currentPCB := by
  obtain ⟨x, l, hsaved⟩ := List.exists_cons_of_ne_nil (h.saved_ne_nil hmode hp)
  rw [(h.resumed hcur hp hsaved).2]
  apply dlx.updates_of_not_mem
  simpa using L.currentPCB_ne p

theorem pcb_step (h : context.Inv L s) (hs : context.Step L s ev s') :
    s'.m.mem L.currentPCB = pcbStep L (s.m.mem L.currentPCB) ev := by
  cases hs with
  | user _ _ hk | kernel _ _ hk => exact hk.1
  | interrupt hcur hp _ hroom => exact interrupt_mem h hcur hp hroom
  | switch => exact dlx.updates_of_mem (by simp) (List.mem_singleton_self _)
  | setResult hmode hp => exact setResult_mem h hmode hp
  | setPtsize hmode hp =>
    refine dlx.updates_of_not_mem ?_
    simpa using ((h.proc _ _ hp).kernel_ne context.home_owned.1).1
  | intrreturn hmode hcur hp => exact intrreturn_mem h hmode hcur hp
  | fork _ _ _ hk => exact hk.1
  | exit => rfl

/-! ## The events that find their frames -/

/-- The current process, where there is one, is in the kernel. -/
def InKernel (cur : Option Pid) (n : Pid → Option Nat) : Prop :=
  ∀ p, cur = some p → ∃ k, n p = some (k + 1)

/-- The frames for an event are there. An interrupt finds one frame at most. -/
def Finds (cur : Option Pid) (n : Pid → Option Nat) : context.Event Pid → Prop
  | .user => ∃ p, cur = some p ∧ n p = some 0
  | .kernel => InKernel cur n
  | .interrupt p _ => cur = some p ∧ (n p = some 0 ∨ n p = some 1)
  | .intrreturn p => cur = some p ∧ ∃ k, n p = some (k + 1)
  | .switch q | .setResult q _ | .setPtsize q _ | .exit q => InKernel cur n ∧ ∃ k, n q = some k
  | .fork q => InKernel cur n ∧ n q = none

/-- And so for each event of a list, after the ones before it. -/
def GoesOn : Option Pid → (Pid → Option Nat) → List (context.Event Pid) → Prop
  | _, _, [] => True
  | cur, n, ev :: evs => Finds cur n ev ∧ GoesOn (currentStep cur ev) (countStep n ev) evs

theorem goesOn_append : GoesOn cur n (evs ++ evs') ↔
    GoesOn cur n evs ∧ GoesOn (evs.foldl currentStep cur) (evs.foldl countStep n) evs' := by
  induction evs generalizing cur n with
  | nil => simp [GoesOn]
  | cons ev evs ih => simp [GoesOn, ih, and_assoc]

/-- The state of the assembly code has the current process and these numbers of
frames. -/
structure Matches (L : context.Layout Pid) (s : context.State Pid) (cur : Option Pid)
    (n : Pid → Option Nat) : Prop where
  inv : context.Inv L s
  count : frameCount s = n
  current : ∀ p, cur = some p → s.m.mem L.currentPCB = L.pcb p
  idle : cur = none → context.SystemMode s.m

theorem Matches.proc (h : Matches L s cur n) (hn : n q = some k) :
    ∃ P, s.procs q = some P ∧ P.saved.length = k := by
  rw [← h.count, frameCount, Option.map_eq_some_iff] at hn
  exact hn

theorem Matches.mode (h : Matches L s cur n) (hp : cur = some p) (hn : n p = some k) :
    context.SystemMode s.m ↔ 0 < k := by
  obtain ⟨P, hP, hlen⟩ := h.proc hn
  rw [h.inv.mode p P (h.current p hp) hP, ← List.length_pos_iff_ne_nil, hlen]

theorem Matches.system_mode (h : Matches L s cur n) (hk : InKernel cur n) :
    context.SystemMode s.m := by
  rcases hcur : cur with _ | p
  · exact h.idle hcur
  · obtain ⟨k, hn⟩ := hk p hcur
    exact (h.mode hcur hn).mpr (Nat.succ_pos k)

theorem Matches.step (h : Matches L s cur n) (hs : context.Step L s ev s')
    (hf : ev = .kernel ∨ Finds cur n ev) :
    Matches L s' (currentStep cur ev) (countStep n ev) := by
  refine ⟨h.inv.step hs, by rw [frameCount_step hs, h.count], fun p hp => ?_, fun hnone => ?_⟩
  · rw [pcb_step h.inv hs]
    cases ev with
    | switch q => rw [pcbStep, Option.some.inj hp]
    | _ => exact h.current p hp
  · -- before the first process only the code of `main` runs
    cases hs with
    | kernel _ hmode => exact hmode
    | fork _ hmode => exact hmode
    | switch => cases hnone
    | setResult | setPtsize | exit => exact h.idle hnone
    | user hmode => exact absurd (h.idle hnone) hmode
    | interrupt | intrreturn =>
      rcases hf with hf | hf
      · cases hf
      · cases hf.1.symm.trans hnone

/-- The C code of the kernel, which leaves the frames alone. -/
def isCode : context.Event Pid → Bool
  | .kernel => true
  | _ => false

/-- The assembly code goes through the events, with C code between them. -/
def Through (L : context.Layout Pid) (s : context.State Pid) (evs : List (context.Event Pid))
    (s' : context.State Pid) : Prop :=
  ∃ evs', context.Run L s evs' s' ∧ evs'.filter (fun ev => !isCode ev) = evs

theorem Through.nil : Through L s [] s := ⟨[], .nil, rfl⟩

theorem Through.snoc {s'' : context.State Pid} (h : Through L s evs s')
    (hs : context.Step L s' ev s'') (hev : isCode ev = false) : Through L s (evs ++ [ev]) s'' := by
  obtain ⟨evs', hr, hevs⟩ := h
  exact ⟨evs' ++ [ev], hr.snoc hs, by simp [hevs, hev]⟩

theorem Through.append {s'' : context.State Pid} (h : Through L s evs s')
    (h' : Through L s' evs' s'') : Through L s (evs ++ evs') s'' := by
  obtain ⟨l, hr, rfl⟩ := h
  obtain ⟨l', hr', rfl⟩ := h'
  exact ⟨l ++ l', hr.append hr', List.filter_append ..⟩

/-- C code at the end. -/
theorem Through.code {s'' : context.State Pid} (h : Through L s evs s')
    (hs : context.Step L s' .kernel s'') : Through L s evs s'' := by
  obtain ⟨evs', hr, hevs⟩ := h
  refine ⟨evs' ++ [.kernel], hr.snoc hs, ?_⟩
  rw [List.filter_append, hevs]
  simp [isCode]

theorem Matches.through (h : Matches L s cur n) (hgo : GoesOn cur n evs)
    (ht : Through L s evs s') :
    Matches L s' (evs.foldl currentStep cur) (evs.foldl countStep n) := by
  obtain ⟨evs', hr, rfl⟩ := ht
  induction hr with
  | nil => exact h
  | @snoc s1 s2 tr ev hr hs ih =>
    rw [List.filter_append] at hgo ⊢
    have hmid := ih (goesOn_append.mp hgo).1
    rcases hev : isCode ev with _ | _
    · rw [List.filter_cons_of_pos (by simp [hev]), List.filter_nil] at hgo ⊢
      rw [List.foldl_append, List.foldl_append]
      exact hmid.step hs (.inr (goesOn_append.mp hgo).2.1)
    · obtain rfl : ev = .kernel := by
        cases ev <;> simp [isCode] at hev
        rfl
      rw [List.filter_cons_of_neg (by simp [isCode]), List.filter_nil, List.append_nil]
      exact hmid.step hs (.inl rfl)

/-- What was stored in a frame can be told from the events without the code. -/
theorem follow_events (p : Pid) (o : Bool) (evs : List (context.Event Pid))
    (x : Nat × context.Stored) : evs.foldlM (context.follow1 p o) x =
      (evs.filter fun ev => !isCode ev).foldlM (context.follow1 p o) x := by
  induction evs generalizing x with
  | nil => rfl
  | cons ev evs ih =>
    cases ev with
    | kernel => exact ih x
    | _ =>
      rw [List.filter_cons_of_pos (by rfl), List.foldlM_cons, List.foldlM_cons]
      exact bind_congr ih

/-! ## The frames of an entry -/

/-- The number of pages that `MemoryCreateSharedPage` and `mmap` store where they
map a page. -/
def mapped (m m' : Machine) (p : Pid) : Call → Option dlx.Word
  | .shareCreatePage | .shareMapPage _ =>
    if (m'.kernel.pcbs p).npages = (m.kernel.pcbs p).npages then none
    else some (BitVec.ofNat 32 (m'.kernel.pcbs p).npages)
  | _ => none

/-- The numbers that `MemoryFreeSharedPte` stores, one for each shared page of
the process that ended. -/
def unmapped (m m' : Machine) (p : Pid) : List dlx.Word :=
  (List.range ((m.kernel.pcbs p).npages - (m'.kernel.pcbs p).npages)).map fun i =>
    BitVec.ofNat 32 ((m.kernel.pcbs p).npages - (i + 1))

/-- What an entry of the kernel does to the frames: `_intrhandler` and
`ProcessSleep` push them, `ProcessSetResult` and the routines of
`share_memory.o` write to one, and `_intrreturn` pops the frame of the process
that goes on. The C code in between is left out. -/
inductive Passage (m m' : Machine) : Label → List (context.Event Pid) → Prop where
  | turn {p q : Pid} {t : context.Latch} {e : Entry}
      (he : e.event = .timer ∨ e.event = .contextSwitch) (hp : m.kernel.currentPCB = some p)
      (hq : m'.kernel.currentPCB = some q) :
      Passage m m' (e, none) [.interrupt p t, .switch q, .intrreturn q]
  /-- The PCB is freed once `ProcessSchedule` has chosen the next process. -/
  | exit {p q : Pid} {t : context.Latch} {e : Entry} (he : e.event = .exit)
      (hp : m.kernel.currentPCB = some p) (hq : m'.kernel.currentPCB = some q) :
      Passage m m' (e, none) ([.interrupt p t, .switch q] ++
        ((unmapped m m' p).map (.setPtsize p) ++ [.exit p, .intrreturn q]))
  | fork {p x : Pid} {t : context.Latch} {e : Entry}
      (he : e.event = .fork true true) (hp : m.kernel.currentPCB = some p)
      (hx : (m.queue .freepcbs).head? = some x) :
      Passage m m' (e, none) [.interrupt p t, .fork x, .intrreturn p]
  | forkFails {p : Pid} {t : context.Latch} {e : Entry}
      (he : e.event = .fork true false) (hp : m.kernel.currentPCB = some p) :
      Passage m m' (e, none) [.interrupt p t, .intrreturn p]
  /-- `main` creates the first process and starts it. -/
  | first {x : Pid} {e : Entry} (he : e.event = .fork true true)
      (hp : m.kernel.currentPCB = none) (hx : (m.queue .freepcbs).head? = some x) :
      Passage m m' (e, none) [.fork x, .switch x, .intrreturn x]
  | firstFails {e : Entry} (he : e.event = .fork true false)
      (hp : m.kernel.currentPCB = none) : Passage m m' (e, none) []
  | returns {p : Pid} {c : Call} {n : Int} {t : context.Latch} {e : Entry}
      (he : e.event = .call c) (hp : m.kernel.currentPCB = some p) :
      Passage m m' (e, some (c, n)) ([.interrupt p t] ++
        ((mapped m m' p c).toList.map (.setPtsize p) ++
          [.setResult p (BitVec.ofInt 32 n), .intrreturn p]))
  /-- The handler traps once more, in `ProcessSleep`. -/
  | sleeps {p q : Pid} {c : Call} {t u : context.Latch} {e : Entry} (he : e.event = .call c)
      (hp : m.kernel.currentPCB = some p) (hq : m'.kernel.currentPCB = some q) :
      Passage m m' (e, none) [.interrupt p t, .interrupt p u, .switch q, .intrreturn q]
  | wakes {p : Pid} {c : Call} {n : Int} {e : Entry} (he : e.event = .resume)
      (hp : m.kernel.currentPCB = some p) :
      Passage m m' (e, some (c, n)) [.setResult p (BitVec.ofInt 32 n), .intrreturn p]
  | sleepsAgain {p q : Pid} {u : context.Latch} {e : Entry} (he : e.event = .resume)
      (hp : m.kernel.currentPCB = some p) (hq : m'.kernel.currentPCB = some q) :
      Passage m m' (e, none) [.interrupt p u, .switch q, .intrreturn q]

/-- A process inside of a trap for a file enters the kernel through the timer
only. -/
def OnlyTimer (m : Machine) (f : Pid → Bool) (ev : Event) : Prop :=
  ∀ p, m.kernel.currentPCB = some p → f p = true → ev = .timer

/-- The kernel, and the registers and the stacks that it works with. -/
structure Computer where
  machine : Machine
  state : context.State Pid
  /-- The processes inside of a trap of `Open`, `Read` or the like. Its handler
  calls `EnableIntrs`. -/
  files : Pid → Bool

/-- What is done in a step: the entry of the kernel, if it is one, and the events
on the stacks. -/
structure Act where
  entry : Option Label
  events : List (context.Event Pid)

namespace Computer

/-- The computer runs the code of a user, or a trap or an interrupt comes. -/
inductive Turn (x : Computer) : Act → Machine → (Pid → Bool) → Prop where
  | user {p : Pid} (hp : x.machine.kernel.currentPCB = some p) (hf : x.machine.frames p = none)
      (hfile : x.files p = false) : Turn x ⟨none, [.user]⟩ x.machine x.files
  /-- A trap that leaves the kernel as it is, like that of `Printf` or `Getpid`. -/
  | trap {p : Pid} {t : context.Latch} {w : Option dlx.Word}
      (hp : x.machine.kernel.currentPCB = some p) (hf : x.machine.frames p = none)
      (hfile : x.files p = false) : Turn x ⟨none, [.interrupt p t] ++
        (w.toList.map (.setResult p) ++ [.intrreturn p])⟩ x.machine x.files
  /-- A character was typed in. -/
  | keyboard {p : Pid} {t : context.Latch} (hp : x.machine.kernel.currentPCB = some p) :
      Turn x ⟨none, [.interrupt p t, .intrreturn p]⟩ x.machine x.files
  /-- A trap that allows interrupts, and its steps. -/
  | fileTrap {p : Pid} {t : context.Latch} (hp : x.machine.kernel.currentPCB = some p)
      (hf : x.machine.frames p = none) (hfile : x.files p = false) :
      Turn x ⟨none, [.interrupt p t]⟩ x.machine (update x.files p true)
  | fileResult {p : Pid} {w : dlx.Word} (hp : x.machine.kernel.currentPCB = some p)
      (hfile : x.files p = true) : Turn x ⟨none, [.setResult p w]⟩ x.machine x.files
  | fileReturns {p : Pid} (hp : x.machine.kernel.currentPCB = some p) (hfile : x.files p = true) :
      Turn x ⟨none, [.intrreturn p]⟩ x.machine (update x.files p false)
  | entry {lab : Label} {m : Machine} {pass : List (context.Event Pid)}
      (hm : x.machine.Step lab m) (hpass : Passage x.machine m lab pass)
      (htimer : OnlyTimer x.machine x.files lab.1.event) : Turn x ⟨some lab, pass⟩ m x.files

structure Step (L : context.Layout Pid) (x : Computer) (act : Act) (y : Computer) : Prop where
  turn : x.Turn act y.machine y.files
  code : Through L x.state act.events y.state

/-- The modules were set up, and no process exists. -/
def Starts (b : Boot) (x : Computer) : Prop :=
  boot b = .ok x.machine ∧ context.Booted x.state ∧ ∀ p, x.files p = false

def Reachable (L : context.Layout Pid) (x : Computer) : Prop :=
  ∃ b x0 tr, Starts b x0 ∧ Run (Step L) x0 tr x

end Computer

/-! ## What the kernel says of the frames -/

/-- The frames of a process that runs: one in a call that is not over, and one in
a trap that allows interrupts. -/
def held (a : System) (f : Pid → Bool) (p : Pid) : Nat :=
  (if a.stopped p = none then 0 else 1) + (f p).toNat

/-- A process that does not run has one more. -/
def framesOf (a : System) (f : Pid → Bool) (p : Pid) : Option Nat :=
  if (a.queue .freepcbs).contains p then none
  else some ((if a.current = some p then 0 else 1) + held a f p)

theorem framesOf_eq (a : System) (f : Pid → Bool) (p : Pid) :
    framesOf a f p = if p ∈ a.queue .freepcbs then none
      else some ((if a.current = some p then 0 else 1) + held a f p) := by
  unfold framesOf
  simp only [List.contains_iff_mem]

theorem held_congr (hstop : b.stopped p = a.stopped p) : held b f p = held a f p := by
  unfold held
  rw [hstop]

theorem held_zero (hstop : a.stopped p = none) (hf : f p = false) : held a f p = 0 := by
  unfold held
  rw [if_pos hstop, hf]
  rfl

/-- A call of the process has returned, or it sleeps in it. -/
inductive CallStep (a b : System) (p : Pid) (c : Call) : Return → Prop where
  | returns {n : Int} (hs : b.stopped = update a.stopped p none) (hp : b.current = some p) :
      CallStep a b p c (some (c, n))
  | sleeps {stop : Stop} (hs : b.stopped = update a.stopped p (some (c, stop))) :
      CallStep a b p c none

theorem callStep_of_call (hs : a.step v (.call c) = some (b, r)) (hp : a.current = some p) :
    CallStep a b p c r := by
  cases System.steps hs with
  | @call x ps _ d res hq hc =>
    obtain rfl : x = p := Option.some.inj ((current_eq hq).symm.trans hp)
    have hstop : d.stopped = a.stopped := (System.Keeps.calls hc).stopped
    rcases call_run hq hc with ⟨⟨n, rfl⟩, tail, hrun⟩ | ⟨⟨stop, rfl⟩, _⟩
    · rw [List.cons_append] at hrun
      exact .returns (by rw [← hstop]; rfl) (current_eq (by simpa using hrun))
    · have hsleep : (d.setStopped x (some (c, stop))).stopped =
          update a.stopped x (some (c, stop)) := by
        rw [← hstop]
        rfl
      exact .sleeps hsleep

theorem callStep_of_resume {stop : Stop} (hs : a.step v .resume = some (b, r))
    (hp : a.current = some p) (hstop : a.stopped p = some (c, stop)) : CallStep a b p c r := by
  cases System.steps hs with
  | @resume x ps c' stop' d res hq hs' hc =>
    obtain rfl : x = p := Option.some.inj ((current_eq hq).symm.trans hp)
    obtain ⟨rfl, rfl⟩ := Prod.mk.inj (Option.some.inj (hs'.symm.trans hstop))
    have hkeep : d.stopped = a.stopped := (System.Keeps.resumes hc).stopped
    rcases resumes_run hq hc with ⟨⟨n, rfl⟩, hrun⟩ | ⟨⟨stop, rfl⟩, _⟩
    · exact .returns (by rw [← hkeep]; rfl) (current_eq (by simpa using hrun))
    · have hsleep : (d.setStopped x (some (c', stop))).stopped =
          update a.stopped x (some (c', stop)) := by
        rw [← hkeep]
        rfl
      exact .sleeps hsleep

theorem Good.call_step (h : Good m) (hs : m.Step lab m') (he : lab.1.event = .call c)
    (hp : m.kernel.currentPCB = some p) :
    m.system.stopped p = none ∧ CallStep m.system m'.system p c lab.2 := by
  obtain ⟨⟨hready, v, hv⟩, _⟩ := h.step hs
  dsimp only at hready hv
  rw [he] at hready hv
  rw [h.current] at hp
  obtain ⟨p', hp', hnone⟩ := hready
  obtain rfl := Option.some.inj (hp.symm.trans hp')
  exact ⟨hnone, callStep_of_call hv hp⟩

theorem Good.resume_step (h : Good m) (hs : m.Step lab m') (he : lab.1.event = .resume)
    (hp : m.kernel.currentPCB = some p) : ∃ c stop, m.system.stopped p = some (c, stop) ∧
      CallStep m.system m'.system p c lab.2 := by
  obtain ⟨⟨hready, v, hv⟩, _⟩ := h.step hs
  dsimp only at hready hv
  rw [he] at hready hv
  rw [h.current] at hp
  obtain ⟨p', hp', hsome⟩ := hready
  obtain rfl := Option.some.inj (hp.symm.trans hp')
  obtain ⟨⟨c, stop⟩, hstop⟩ := Option.ne_none_iff_exists'.mp hsome
  exact ⟨c, stop, hstop, callStep_of_resume hv hp hstop⟩

/-- The next process goes on with the frame on top. -/
theorem switch_frames (hfree : b.queue .freepcbs = a.queue .freepcbs)
    (hheld : ∀ x, x ≠ p → held b f x = held a f x) (hp : a.current = some p)
    (hlive : p ∉ a.queue .freepcbs) (hq : b.current = some q)
    (hn : n = update (framesOf a f) p (some (1 + held b f p))) :
    [.switch q, .intrreturn q].foldl countStep n = framesOf b f := by
  subst hn
  funext x
  simp only [List.foldl_cons, List.foldl_nil, countStep]
  rw [framesOf_eq, hfree, hq]
  by_cases hx : x = q
  · subst hx
    rw [update_self]
    by_cases hxp : x = p
    · subst hxp
      simp [hlive]
    · have hne : a.current ≠ some x := by simp [hp, Ne.symm hxp]
      rw [update_of_ne hxp, framesOf_eq, hheld x hxp, if_neg hne]
      split
      · rfl
      · simp
  · have hne : some q ≠ some x := by simpa using Ne.symm hx
    rw [update_of_ne hx, if_neg hne]
    by_cases hxp : x = p
    · subst hxp
      simp [hlive]
    · have hne' : a.current ≠ some x := by simp [hp, Ne.symm hxp]
      rw [update_of_ne hxp, framesOf_eq, hheld x hxp, if_neg hne']

/-- The same process goes on. -/
theorem same_frames (hfree : b.queue .freepcbs = a.queue .freepcbs)
    (hheld : ∀ x, x ≠ p → held b f' x = held a f x) (hp : a.current = some p)
    (hlive : p ∉ a.queue .freepcbs) (hq : b.current = some p)
    (hn : n = update (framesOf a f) p (some (held b f' p))) : n = framesOf b f' := by
  subst hn
  funext x
  rw [framesOf_eq, hfree, hq]
  by_cases hxp : x = p
  · subst hxp
    simp [hlive]
  · have hne : some p ≠ some x := by simpa using Ne.symm hxp
    rw [update_of_ne hxp, framesOf_eq, hheld x hxp, hp]

theorem Good.not_free (h : Good m) (hp : m.kernel.currentPCB = some p) :
    p ∉ m.queue .freepcbs := by
  obtain ⟨home, waits, hsl⟩ := h.inv.sleepers
  rw [h.current] at hp
  obtain ⟨ps, hrun⟩ := current_cons hp
  have hhome := (hsl.running (p := p) (by rw [hrun]; exact List.mem_cons_self)).1
  rw [← system_queue, hsl.placed.mem_proc rfl, hhome]
  simp

/-- A free process is inside of no call. -/
theorem Good.free_stopped (h : Good m) (hp : p ∈ m.queue .freepcbs) :
    m.system.stopped p = none := by
  obtain ⟨home, waits, hsl⟩ := h.inv.sleepers
  exact hsl.free p ((hsl.placed.mem_proc (q := .freepcbs) rfl p).mp hp)

theorem framesOf_current (hp : a.current = some p) (hlive : p ∉ a.queue .freepcbs) :
    framesOf a f p = some (held a f p) := by
  rw [framesOf_eq, if_neg hlive, if_pos hp, Nat.zero_add]

theorem step_same_stopped (hs : a.step v e = some (b, r)) (hc : ∀ c, e ≠ .call c)
    (hr : e ≠ .resume) : b.stopped = a.stopped := by
  cases System.steps hs with
  | timer | contextSwitch | exit | forkFails | fork => rfl
  | call => exact absurd rfl (hc _)
  | resume => exact absurd rfl hr

/-- The stores of numbers of pages leave the frames as they are. -/
theorem setPtsize_count {l : List dlx.Word} :
    (l.map (context.Event.setPtsize p)).foldl countStep n = n := by
  induction l with
  | nil => rfl
  | cons w l ih => exact ih

theorem setPtsize_current {l : List dlx.Word} :
    (l.map (context.Event.setPtsize p)).foldl currentStep cur = cur := by
  induction l with
  | nil => rfl
  | cons w l ih => exact ih

/-- The process that ends has no frames. -/
theorem exit_frames (hfree : ∀ x, x ∈ b.queue .freepcbs ↔ x = p ∨ x ∈ a.queue .freepcbs)
    (hheld : ∀ x, held b f x = held a f x) (hp : a.current = some p) (hq : b.current = some q)
    (hlive : q ∉ b.queue .freepcbs) :
    [.interrupt p t, .switch q, .exit p, .intrreturn q].foldl countStep (framesOf a f) =
      framesOf b f := by
  have hqp : q ≠ p := fun he => hlive ((hfree q).mpr (.inl he))
  funext x
  simp only [List.foldl_cons, List.foldl_nil, countStep]
  by_cases hxq : x = q
  · subst hxq
    have hne : a.current ≠ some x := by simp [hp, hqp.symm]
    have hold : x ∉ a.queue .freepcbs := fun hx => hlive ((hfree x).mpr (.inr hx))
    rw [update_self, update_of_ne hqp, update_of_ne hqp, framesOf_current hq hlive, framesOf_eq,
      if_neg hold, if_neg hne, hheld, Option.map_some, Nat.add_sub_cancel_left]
  · rw [update_of_ne hxq]
    by_cases hxp : x = p
    · subst hxp
      rw [update_self, framesOf_eq, if_pos ((hfree x).mpr (.inl rfl))]
    · rw [update_of_ne hxp, update_of_ne hxp]
      simp only [framesOf_eq]
      have hx : some p ≠ some x := by simpa using Ne.symm hxp
      have hx' : some q ≠ some x := by simpa using Ne.symm hxq
      simp only [hfree, hxp, false_or, hheld, hp, hq, if_neg hx, if_neg hx']

/-- A new process has the frame that it starts from. -/
theorem fork_frames {x : Pid} {ps : List Pid} (hfree : a.queue .freepcbs = x :: ps)
    (hfree' : b.queue .freepcbs = ps) (hx : x ∉ ps) (hx' : held a f x = 0)
    (hheld : ∀ x, held b f x = held a f x) (hcur : b.current = a.current)
    (hne : a.current ≠ some x) : framesOf b f = update (framesOf a f) x (some 1) := by
  funext y
  rw [framesOf_eq, hfree', hheld, hcur]
  by_cases hy : y = x
  · subst hy
    rw [update_self, if_neg hx, if_neg hne, hx']
  · rw [update_of_ne hy, framesOf_eq, hfree]
    simp only [List.mem_cons, hy, false_or]

theorem first_frames {x : Pid} {ps : List Pid} (hfree : a.queue .freepcbs = x :: ps)
    (hfree' : b.queue .freepcbs = ps) (hx : x ∉ ps) (hx' : held a f x = 0)
    (hheld : ∀ x, held b f x = held a f x) (hcur : a.current = none)
    (hcur' : b.current = some x) : framesOf b f = update (framesOf a f) x (some 0) := by
  funext y
  rw [framesOf_eq, hfree', hheld, hcur']
  by_cases hy : y = x
  · subst hy
    rw [update_self, if_neg hx, if_pos rfl, hx']
  · have hne : some x ≠ some y := by simpa using Ne.symm hy
    rw [update_of_ne hy, framesOf_eq, hfree, hcur]
    simp only [List.mem_cons, hy, false_or, if_neg hne, reduceCtorEq, if_false]

theorem framesOf_congr (hfree : ∀ x, x ∈ b.queue .freepcbs ↔ x ∈ a.queue .freepcbs)
    (hheld : ∀ x, held b f x = held a f x) (hcur : b.current = a.current) :
    framesOf b f = framesOf a f := by
  funext x
  simp only [framesOf_eq]
  simp only [hfree, hheld, hcur]

/-- What a fork does to the list of the free processes, and to the run queue. -/
theorem fork_queues {isUser loads : Bool} {x : Pid}
    (hs : a.step v (.fork isUser loads) = some (b, r)) (hx : (a.queue .freepcbs).head? = some x)
    (hl : (isUser && !loads) = false) : ∃ ps, a.queue .freepcbs = x :: ps ∧
      b.queue .freepcbs = ps ∧ b.queue .runQueue = a.queue .runQueue ++ [x] := by
  cases System.steps hs with
  | forkFails => cases hl
  | @fork _ _ y ps hq =>
    obtain rfl : y = x := by simpa [hq] using hx
    exact ⟨ps, hq, by simp [moveLast, hq], by simp [moveLast]⟩

theorem forkFails_queues (hs : a.step v (.fork true false) = some (b, r)) :
    (∀ x, x ∈ b.queue .freepcbs ↔ x ∈ a.queue .freepcbs) ∧
      b.queue .runQueue = a.queue .runQueue := by
  cases System.steps hs with
  | @forkFails y ps hq => exact ⟨fun x => by simp [moveLast, hq, or_comm], by simp [moveLast]⟩
  | fork hq hl => cases hl

theorem fork_free {isUser loads : Bool} {x : Pid} (hs : a.step v (.fork isUser loads) = some (b, r))
    (hx : x ∈ b.queue .freepcbs) : x ∈ a.queue .freepcbs := by
  cases System.steps hs with
  | forkFails hq => simpa [moveLast, hq, or_comm] using hx
  | fork hq =>
    rw [hq]
    exact List.mem_cons_of_mem _ (by simpa [moveLast, hq] using hx)

theorem exit_free (hs : a.step v .exit = some (b, r)) (hp : a.current = some p) (x : Pid) :
    x ∈ b.queue .freepcbs ↔ x = p ∨ x ∈ a.queue .freepcbs := by
  cases System.steps hs with
  | exit hq =>
    obtain rfl := Option.some.inj ((current_eq hq).symm.trans hp)
    simp [moveLast, or_comm]

theorem passage_current (h : Good m) (hs : m.Step lab m') (hpass : Passage m m' lab pass) :
    pass.foldl currentStep m.kernel.currentPCB = m'.kernel.currentPCB := by
  obtain ⟨⟨hready, v, hv⟩, hf⟩ := h.step hs
  have hcur' : m'.kernel.currentPCB = m'.system.current := hf.good.current
  cases hpass with
  | turn _ _ hq | sleeps _ _ hq | sleepsAgain _ _ hq => exact hq.symm
  | exit _ _ hq =>
    rw [List.foldl_append, List.foldl_append, setPtsize_current]
    exact hq.symm
  | @fork p x t e he hp hx =>
    dsimp only at hv
    rw [he] at hv
    obtain ⟨ps, _, _, hrun⟩ := fork_queues hv hx rfl
    obtain ⟨qs, hrun0⟩ := current_cons (h.current ▸ hp : m.system.current = some p)
    rw [hrun0, List.cons_append] at hrun
    rw [hcur', current_eq hrun]
    exact hp
  | @forkFails p t e he hp =>
    dsimp only at hv
    rw [he] at hv
    rw [hcur', System.current, (forkFails_queues hv).2]
    exact h.current
  | @first x e he hp hx =>
    dsimp only at hv
    rw [he] at hv
    obtain ⟨ps, _, _, hrun⟩ := fork_queues hv hx rfl
    have hcur : m.system.current = none := h.current ▸ hp
    have hrun0 : m.system.queue .runQueue = [] := List.head?_eq_none_iff.mp hcur
    rw [hrun0, List.nil_append] at hrun
    rw [hcur', current_eq hrun]
    rfl
  | @firstFails e he hp =>
    dsimp only at hv
    rw [he] at hv
    rw [hcur', System.current, (forkFails_queues hv).2]
    exact h.current
  | @returns p c n t e he hp =>
    rw [List.foldl_append, List.foldl_append, setPtsize_current]
    cases (h.call_step hs he hp).2 with
    | returns hstop hp' => exact hp.trans (hcur'.trans hp').symm
  | @wakes p c n e he hp =>
    obtain ⟨c', stop, _, hcall⟩ := h.resume_step hs he hp
    cases hcall with
    | returns hstop hp' => exact hp.trans (hcur'.trans hp').symm

/-- Only live processes that are inside of no call are in traps for files. -/
def FileTraps (m : Machine) (f : Pid → Bool) : Prop :=
  ∀ p, f p = true → p ∉ m.queue .freepcbs ∧ m.system.stopped p = none

theorem FileTraps.free (h : FileTraps m f) (hp : p ∈ m.queue .freepcbs) : f p = false := by
  by_contra hf
  exact (h p (Bool.eq_true_of_not_eq_false hf)).1 hp

theorem FileTraps.held_le (h : FileTraps m f) (p : Pid) : held m.system f p ≤ 1 := by
  unfold held
  rcases hf : f p with _ | _
  · split <;> simp
  · rw [if_pos (h p hf).2]
    simp

theorem OnlyTimer.off {ev : Event} (h : OnlyTimer m f ev) (hp : m.kernel.currentPCB = some p)
    (hev : ev ≠ .timer) : f p = false := by
  by_contra hf
  exact hev (h p hp (Bool.eq_true_of_not_eq_false hf))

/-- The frames on the stacks are those that the kernel counts with. -/
theorem passage_frames (h : Good m) (hs : m.Step lab m') (hpass : Passage m m' lab pass)
    (hfiles : FileTraps m f) (htimer : OnlyTimer m f lab.1.event) :
    pass.foldl countStep (framesOf m.system f) = framesOf m'.system f := by
  obtain ⟨⟨hready, v, hv⟩, hf⟩ := h.step hs
  have hcurrent {p : Pid} (hp : m.kernel.currentPCB = some p) :
      m.system.current = some p ∧ p ∉ m.system.queue .freepcbs :=
    ⟨h.current ▸ hp, h.not_free hp⟩
  have hcurrent' {p : Pid} (hp : m'.kernel.currentPCB = some p) :
      m'.system.current = some p ∧ p ∉ m'.system.queue .freepcbs :=
    ⟨hf.good.current ▸ hp, hf.good.not_free hp⟩
  have hfree (he : lab.1.event ≠ .exit) (he' : ∀ isUser loads, lab.1.event ≠ .fork isUser loads) :
      m'.system.queue .freepcbs = m.system.queue .freepcbs := h.free_step hs he he'
  have hnext : m'.system.current = pass.foldl currentStep m.system.current := by
    rw [← hf.good.current, ← h.current, passage_current h hs hpass]
  have hsame (he : ∀ c, lab.1.event ≠ .call c) (he' : lab.1.event ≠ .resume) (x : Pid) :
      held m'.system f x = held m.system f x :=
    held_congr (congrFun (step_same_stopped hv he he') x)
  have hfresh {x : Pid} (hx : (m.queue .freepcbs).head? = some x) : held m.system f x = 0 :=
    held_zero (h.free_stopped (List.mem_of_mem_head? hx))
      (hfiles.free (List.mem_of_mem_head? hx))
  cases hpass with
  | @turn p q t e he hp hq =>
    obtain ⟨hcur, hlive⟩ := hcurrent hp
    dsimp only at hfree hsame
    have hheld := hsame (by rcases he with he | he <;> simp [he])
      (by rcases he with he | he <;> simp [he])
    refine switch_frames (hfree (by rcases he with he | he <;> simp [he])
      (by rcases he with he | he <;> simp [he])) (fun x _ => hheld x) hcur hlive
      (hcurrent' hq).1 ?_
    rw [countStep, framesOf_current hcur hlive, hheld, Option.map_some, Nat.add_comm]
  | @exit p q t e he hp hq =>
    dsimp only at hv hsame
    rw [he] at hv
    rw [List.foldl_append, List.foldl_append, setPtsize_count]
    exact exit_frames (t := t) (exit_free hv (hcurrent hp).1) (hsame (by simp [he]) (by simp [he]))
      (hcurrent hp).1 (hcurrent' hq).1 (hcurrent' hq).2
  | @fork p x t e he hp hx =>
    obtain ⟨hcur, hlive⟩ := hcurrent hp
    dsimp only at hv hready hsame
    have hoff := htimer.off hp (by simp [he])
    rw [he] at hv hready
    obtain ⟨ps, hq, hq', _⟩ := fork_queues hv hx rfl
    have hne : x ≠ p := by
      rintro rfl
      exact hlive (by rw [hq]; exact List.mem_cons_self)
    have hnd : (x :: ps).Nodup := hq ▸ h.queue_nodup .freepcbs
    have hzero : framesOf m.system f p = some 0 := by
      rw [framesOf_current hcur hlive, held_zero (hready p hcur) hoff]
    rw [fork_frames hq hq' (List.nodup_cons.mp hnd).1 (hfresh hx)
      (hsame (by simp [he]) (by simp [he])) hnext (by simp [hcur, hne.symm])]
    simp only [List.foldl_cons, List.foldl_nil, countStep]
    rw [update_of_ne hne.symm, update_self, hzero, update_comm hne.symm, update_idem]
    exact update_eq_self_iff.mpr (by rw [update_of_ne hne.symm, hzero]; rfl)
  | @forkFails p t e he hp =>
    obtain ⟨hcur, hlive⟩ := hcurrent hp
    dsimp only at hv hsame
    have hheld := hsame (by simp [he]) (by simp [he])
    rw [he] at hv
    rw [framesOf_congr (forkFails_queues hv).1 hheld hnext]
    simp only [List.foldl_cons, List.foldl_nil, countStep]
    rw [update_self, update_idem]
    exact update_eq_self_iff.mpr (by rw [framesOf_current hcur hlive]; simp)
  | @first x e he hp hx =>
    dsimp only at hv hsame
    have hheld := hsame (by simp [he]) (by simp [he])
    rw [he] at hv
    obtain ⟨ps, hq, hq', _⟩ := fork_queues hv hx rfl
    have hnd : (x :: ps).Nodup := hq ▸ h.queue_nodup .freepcbs
    rw [first_frames hq hq' (List.nodup_cons.mp hnd).1 (hfresh hx) hheld (h.current ▸ hp) hnext]
    simp only [List.foldl_cons, List.foldl_nil, countStep]
    rw [update_self, update_idem]
    rfl
  | @firstFails e he hp =>
    dsimp only at hv hsame
    have hheld := hsame (by simp [he]) (by simp [he])
    rw [he] at hv
    exact (framesOf_congr (forkFails_queues hv).1 hheld hnext).symm
  | @returns p c n t e he hp =>
    obtain ⟨hcur, hlive⟩ := hcurrent hp
    obtain ⟨hnone, hcall⟩ := h.call_step hs he hp
    have hoff := htimer.off hp (by simp [he])
    rw [List.foldl_append, List.foldl_append, setPtsize_count]
    cases hcall with
    | returns hstop hcur' =>
      refine same_frames (hfree (by simp [he]) (by simp [he]))
        (fun x hx => held_congr (by rw [hstop, update_of_ne hx])) hcur hlive hcur' ?_
      simp [countStep, framesOf_current hcur hlive, held, hnone, hstop, hoff]
  | @sleeps p q c t u e he hp hq =>
    obtain ⟨hcur, hlive⟩ := hcurrent hp
    obtain ⟨hnone, hcall⟩ := h.call_step hs he hp
    have hoff := htimer.off hp (by simp [he])
    cases hcall with
    | sleeps hstop =>
      refine switch_frames (hfree (by simp [he]) (by simp [he]))
        (fun x hx => held_congr (by rw [hstop, update_of_ne hx])) hcur hlive (hcurrent' hq).1 ?_
      simp [countStep, framesOf_current hcur hlive, held, hnone, hstop, hoff]
  | @wakes p c n e he hp =>
    obtain ⟨hcur, hlive⟩ := hcurrent hp
    obtain ⟨c', stop, hstop0, hcall⟩ := h.resume_step hs he hp
    have hoff := htimer.off hp (by simp [he])
    cases hcall with
    | returns hstop hcur' =>
      refine same_frames (hfree (by simp [he]) (by simp [he]))
        (fun x hx => held_congr (by rw [hstop, update_of_ne hx])) hcur hlive hcur' ?_
      simp [countStep, framesOf_current hcur hlive, held, hstop0, hstop, hoff]
  | @sleepsAgain p q u e he hp hq =>
    obtain ⟨hcur, hlive⟩ := hcurrent hp
    obtain ⟨c', stop, hstop0, hcall⟩ := h.resume_step hs he hp
    have hoff := htimer.off hp (by simp [he])
    cases hcall with
    | sleeps hstop =>
      refine switch_frames (hfree (by simp [he]) (by simp [he]))
        (fun x hx => held_congr (by rw [hstop, update_of_ne hx])) hcur hlive (hcurrent' hq).1 ?_
      simp [countStep, framesOf_current hcur hlive, held, hstop0, hstop, hoff]

/-! ## An entry finds its frames -/

theorem inKernel_some (hn : n p = some (k + 1)) : InKernel (some p) n := by
  intro q hq
  rw [← Option.some.inj hq]
  exact ⟨k, hn⟩

theorem goesOn_interrupt (hn : n p = some k) (hk : k ≤ 1)
    (hrest : GoesOn (some p) (update n p (some (k + 1))) evs) :
    GoesOn (some p) n (.interrupt p t :: evs) := by
  refine ⟨⟨rfl, ?_⟩, ?_⟩
  · rw [hn]
    rcases Nat.le_one_iff_eq_zero_or_eq_one.mp hk with rfl | rfl
    · exact .inl rfl
    · exact .inr rfl
  · rw [countStep, hn]
    exact hrest

theorem goesOn_return (hn : n p = some (k + 1)) : GoesOn (some p) n [.intrreturn p] :=
  ⟨⟨rfl, k, hn⟩, trivial⟩

theorem goesOn_result (hn : n p = some (k + 1)) :
    GoesOn (some p) n [.setResult p w, .intrreturn p] :=
  ⟨⟨inKernel_some hn, _, hn⟩, goesOn_return hn⟩

theorem goesOn_switch {j : Nat} (hn : n p = some (k + 1)) (hq : n q = some (j + 1)) :
    GoesOn (some p) n [.switch q, .intrreturn q] :=
  ⟨⟨inKernel_some hn, _, hq⟩, goesOn_return hq⟩

theorem goesOn_setPtsize (hk : InKernel cur n) (hn : n p = some k) (l : List dlx.Word) :
    GoesOn cur n (l.map (context.Event.setPtsize p)) := by
  induction l with
  | nil => trivial
  | cons w l ih => exact ⟨⟨hk, k, hn⟩, ih⟩

/-- A process that does not run has a frame. -/
theorem framesOf_other (hp : a.current = some p) (hqp : q ≠ p) (hq : q ∉ a.queue .freepcbs) :
    ∃ j, framesOf a f q = some (j + 1) := by
  have hne : a.current ≠ some q := by simp [hp, hqp.symm]
  refine ⟨held a f q, ?_⟩
  rw [framesOf_eq, if_neg hq, if_neg hne, Nat.add_comm]

/-- After the trap of the current process every process has one. -/
theorem entered_frames (hp : a.current = some p) (hq : q ∉ a.queue .freepcbs) :
    ∃ j, update (framesOf a f) p (some (k + 1)) q = some (j + 1) := by
  by_cases hqp : q = p
  · subst hqp
    exact ⟨k, update_self ..⟩
  · rw [update_of_ne hqp]
    exact framesOf_other hp hqp hq

theorem passage_goes_on (h : Good m) (hs : m.Step lab m') (hpass : Passage m m' lab pass)
    (hfiles : FileTraps m f) (htimer : OnlyTimer m f lab.1.event) :
    GoesOn m.kernel.currentPCB (framesOf m.system f) pass := by
  obtain ⟨⟨hready, v, hv⟩, hf⟩ := h.step hs
  have hcurrent {p : Pid} (hp : m.kernel.currentPCB = some p) :
      m.system.current = some p ∧ framesOf m.system f p = some (held m.system f p) := by
    have hcur : m.system.current = some p := h.current ▸ hp
    exact ⟨hcur, framesOf_current hcur (h.not_free hp)⟩
  have hnext {q : Pid} (hq : m'.kernel.currentPCB = some q) (he : lab.1.event ≠ .exit)
      (he' : ∀ isUser loads, lab.1.event ≠ .fork isUser loads) :
      q ∉ m.system.queue .freepcbs := by
    have hsame : m'.system.queue .freepcbs = m.system.queue .freepcbs := h.free_step hs he he'
    rw [← hsame]
    exact hf.good.not_free hq
  have hfresh {x : Pid} (hx : (m.queue .freepcbs).head? = some x) :
      framesOf m.system f x = none := by
    rw [framesOf_eq, system_queue, if_pos (List.mem_of_mem_head? hx)]
  cases hpass with
  | @turn p q t e he hp hq =>
    obtain ⟨hcur, hn⟩ := hcurrent hp
    obtain ⟨j, hj⟩ := entered_frames (f := f) (k := held m.system f p) hcur
      (hnext hq (by rcases he with he | he <;> simp [he])
        (by rcases he with he | he <;> simp [he]))
    rw [hp]
    exact goesOn_interrupt hn (hfiles.held_le p) (goesOn_switch (update_self ..) hj)
  | @exit p q t e he hp hq =>
    obtain ⟨hcur, hn⟩ := hcurrent hp
    have hq' : q ∉ m'.system.queue .freepcbs := hf.good.not_free hq
    dsimp only at hv
    rw [he] at hv
    have hfree := exit_free hv hcur q
    have hqp : q ≠ p := fun hqp => hq' (hfree.mpr (.inl hqp))
    obtain ⟨j, hj⟩ := entered_frames (f := f) (k := held m.system f p) hcur
      fun hold => hq' (hfree.mpr (.inr hold))
    rw [hp, List.cons_append, List.singleton_append]
    refine goesOn_interrupt hn (hfiles.held_le p)
      ⟨⟨inKernel_some (update_self ..), _, hj⟩, ?_⟩
    rw [goesOn_append, setPtsize_count, setPtsize_current]
    refine ⟨goesOn_setPtsize (inKernel_some hj) (update_self ..) _,
      ⟨inKernel_some hj, _, update_self ..⟩, goesOn_return (k := j) ?_⟩
    rw [countStep, update_of_ne hqp]
    exact hj
  | @fork p x t e he hp hx =>
    obtain ⟨hcur, hn⟩ := hcurrent hp
    have hxp : x ≠ p := by
      rintro rfl
      exact h.not_free hp (List.mem_of_mem_head? hx)
    rw [hp]
    refine goesOn_interrupt hn (hfiles.held_le p) ⟨⟨inKernel_some (update_self ..), ?_⟩,
      goesOn_return (k := held m.system f p) ?_⟩
    · rw [update_of_ne hxp]
      exact hfresh hx
    · rw [countStep, update_of_ne hxp.symm]
      exact update_self ..
  | @forkFails p t e he hp =>
    obtain ⟨hcur, hn⟩ := hcurrent hp
    rw [hp]
    exact goesOn_interrupt hn (hfiles.held_le p) (goesOn_return (update_self ..))
  | @first x e he hp hx =>
    rw [hp]
    refine ⟨⟨fun _ hnone => (by cases hnone), hfresh hx⟩, ⟨fun _ hnone => (by cases hnone), 1,
      update_self ..⟩, goesOn_return (k := 0) (update_self ..)⟩
  | firstFails he hp => trivial
  | @returns p c n t e he hp =>
    obtain ⟨hcur, hn⟩ := hcurrent hp
    rw [hp, List.singleton_append]
    refine goesOn_interrupt hn (hfiles.held_le p) ?_
    rw [goesOn_append, setPtsize_count, setPtsize_current]
    exact ⟨goesOn_setPtsize (inKernel_some (update_self ..)) (update_self ..) _,
      goesOn_result (update_self ..)⟩
  | @sleeps p q c t u e he hp hq =>
    obtain ⟨hcur, hn⟩ := hcurrent hp
    have hnone := (h.call_step hs he hp).1
    obtain ⟨j, hj⟩ := entered_frames (f := f) (k := 1) hcur
      (hnext hq (by simp [he]) (by simp [he]))
    rw [hp]
    rw [held_zero hnone (htimer.off hp (by simp [he]))] at hn
    refine goesOn_interrupt hn (Nat.zero_le 1) (goesOn_interrupt (update_self ..) le_rfl ?_)
    rw [update_idem]
    exact goesOn_switch (update_self ..) hj
  | @wakes p c n e he hp =>
    obtain ⟨hcur, hn⟩ := hcurrent hp
    obtain ⟨c', stop, hstop, _⟩ := h.resume_step hs he hp
    have hone : held m.system f p = 1 := by
      simp [held, hstop, htimer.off hp (by simp [he])]
    rw [hone] at hn
    rw [hp]
    exact goesOn_result hn
  | @sleepsAgain p q u e he hp hq =>
    obtain ⟨hcur, hn⟩ := hcurrent hp
    obtain ⟨j, hj⟩ := entered_frames (f := f) (k := held m.system f p) hcur
      (hnext hq (by simp [he]) (by simp [he]))
    rw [hp]
    exact goesOn_interrupt hn (hfiles.held_le p) (goesOn_switch (update_self ..) hj)

/-! ## The frames in every state -/

theorem FileTraps.entry (h : FileTraps m f) (hg : Good m) (hs : m.Step lab m')
    (htimer : OnlyTimer m f lab.1.event) : FileTraps m' f := by
  intro p hp
  obtain ⟨hlive, hstop⟩ := h p hp
  obtain ⟨⟨hready, v, hv⟩, hf⟩ := hg.step hs
  constructor
  · change p ∉ m'.system.queue .freepcbs
    cases hev : lab.1.event with
    | exit =>
      rw [hev] at hv hready
      obtain ⟨x, hx, _⟩ := hready
      rw [exit_free hv hx]
      rintro (rfl | hfree)
      · exact absurd (htimer p (hg.current.trans hx) hp) (by simp [hev])
      · exact hlive hfree
    | fork isUser loads =>
      rw [hev] at hv
      exact fun hfree => hlive (fork_free hv hfree)
    | _ =>
      rw [system_queue, hg.free_step hs (by simp [hev]) (by simp [hev])]
      exact hlive
  · rcases step_stopped hv p with he | ⟨hcur, _⟩
    · rw [he, hstop]
    · have hev := htimer p (hg.current.trans hcur) hp
      rw [step_same_stopped hv (by simp [hev]) (by simp [hev]), hstop]

namespace Computer

variable {x x' : Computer} {act : Act} {tr : List (Move Computer Act)}

/-- The stacks hold the frames that the kernel counts with, and `_currentPCB`
is the process that it lets run. -/
structure Ok (L : context.Layout Pid) (x : Computer) : Prop where
  good : Good x.machine
  booted : ∃ s evs, context.Booted s ∧ context.Run L s evs x.state
  code : Matches L x.state x.machine.kernel.currentPCB (framesOf x.machine.system x.files)
  files : FileTraps x.machine x.files

theorem Starts.ok {b : Boot} (h : Starts b x) : x.Ok L := by
  obtain ⟨hb, hs, hfiles⟩ := h
  obtain ⟨m, hm, hgood, hsys, _⟩ := boot_good b
  obtain rfl : x.machine = m := Except.ok.inj (hb.symm.trans hm)
  have hcur : x.machine.kernel.currentPCB = none := by
    rw [hgood.current, hsys]
    rfl
  refine ⟨hgood, ⟨x.state, [], hs, .nil⟩, ⟨hs.inv, ?_, by simp [hcur], fun _ => hs.1⟩,
    fun p hp => absurd hp (by simp [hfiles])⟩
  funext p
  unfold frameCount
  rw [framesOf_eq, hs.2 p, hsys, if_pos (by simp [System.start])]
  rfl

theorem Ok.count (h : x.Ok L) (hp : x.machine.kernel.currentPCB = some p) :
    framesOf x.machine.system x.files p = some (held x.machine.system x.files p) :=
  framesOf_current (h.good.current ▸ hp) (h.good.not_free hp)

theorem Ok.held_zero (hf : x.machine.frames p = none) (hfile : x.files p = false) :
    held x.machine.system x.files p = 0 :=
  dlxos.held_zero (by simp [Machine.system, hf]) hfile

theorem Ok.held_file (h : x.Ok L) (hfile : x.files p = true) :
    held x.machine.system x.files p = 1 := by
  unfold held
  rw [if_pos (h.files p hfile).2, hfile]
  rfl

/-- Every step finds its frames. -/
theorem Ok.goes_on {f : Pid → Bool} (h : x.Ok L) (ht : x.Turn act m f) : GoesOn
    x.machine.kernel.currentPCB (framesOf x.machine.system x.files) act.events := by
  cases ht with
  | @user p hp hf hfile =>
    exact ⟨⟨p, hp, by rw [h.count hp, held_zero hf hfile]⟩, trivial⟩
  | @trap p t w hp hf hfile =>
    have hn := h.count hp
    rw [held_zero hf hfile] at hn
    rw [hp]
    refine goesOn_interrupt hn (Nat.zero_le 1) ?_
    cases w with
    | none => exact goesOn_return (update_self ..)
    | some w => exact goesOn_result (update_self ..)
  | keyboard hp =>
    rw [hp]
    exact goesOn_interrupt (h.count hp) (h.files.held_le _) (goesOn_return (update_self ..))
  | fileTrap hp hf hfile =>
    have hn := h.count hp
    rw [held_zero hf hfile] at hn
    rw [hp]
    exact goesOn_interrupt hn (Nat.zero_le 1) trivial
  | fileResult hp hfile =>
    have hn := h.count hp
    rw [h.held_file hfile] at hn
    rw [hp]
    exact ⟨⟨inKernel_some hn, _, hn⟩, trivial⟩
  | fileReturns hp hfile =>
    have hn := h.count hp
    rw [h.held_file hfile] at hn
    rw [hp]
    exact goesOn_return hn
  | entry hm hpass htimer => exact passage_goes_on h.good hm hpass h.files htimer

/-- And after it the stacks are as the kernel says again. -/
theorem Ok.counts {f : Pid → Bool} (h : x.Ok L) (ht : x.Turn act m f) :
    Good m ∧ FileTraps m f ∧
      act.events.foldl currentStep x.machine.kernel.currentPCB = m.kernel.currentPCB ∧
      act.events.foldl countStep (framesOf x.machine.system x.files) = framesOf m.system f := by
  have hcur {p : Pid} (hp : x.machine.kernel.currentPCB = some p) :
      x.machine.system.current = some p := h.good.current ▸ hp
  cases ht with
  | user | fileResult => exact ⟨h.good, h.files, rfl, rfl⟩
  | @trap p t w hp hf hfile =>
    have hn := h.count hp
    refine ⟨h.good, h.files, by cases w <;> rfl, ?_⟩
    cases w <;> simp [countStep, hn]
  | @keyboard p t hp =>
    have hn := h.count hp
    exact ⟨h.good, h.files, rfl, by simp [countStep, hn]⟩
  | @fileTrap p t hp hf hfile =>
    refine ⟨h.good, fun q hq => ?_, rfl, same_frames (f := x.files) rfl (fun y hy => ?_) (hcur hp)
      (h.good.not_free hp) (hcur hp) ?_⟩
    · by_cases hqp : q = p
      · subst hqp
        exact ⟨h.good.not_free hp, by simp [Machine.system, hf]⟩
      · exact h.files q (by simpa [hqp] using hq)
    · simp [held, hy]
    · simp [countStep, h.count hp, held, hfile]
  | @fileReturns p hp hfile =>
    refine ⟨h.good, fun q hq => ?_, rfl, same_frames (f := x.files) rfl (fun y hy => ?_) (hcur hp)
      (h.good.not_free hp) (hcur hp) ?_⟩
    · by_cases hqp : q = p
      · subst hqp
        simp at hq
      · exact h.files q (by simpa [hqp] using hq)
    · simp [held, hy]
    · simp [countStep, h.count hp, held, hfile]
  | entry hm hpass htimer =>
    exact ⟨(h.good.step hm).2.good, h.files.entry h.good hm htimer,
      passage_current h.good hm hpass, passage_frames h.good hm hpass h.files htimer⟩

theorem Ok.step (h : x.Ok L) (hs : x.Step L act x') : x'.Ok L := by
  obtain ⟨hturn, hcode⟩ := hs
  obtain ⟨hgood, hfiles, hcur, hcount⟩ := h.counts hturn
  have hmatch := h.code.through (h.goes_on hturn) hcode
  rw [hcur, hcount] at hmatch
  obtain ⟨s0, evs0, hs0, hr0⟩ := h.booted
  obtain ⟨evs, hr, _⟩ := hcode
  exact ⟨hgood, ⟨s0, _, hs0, hr0.append hr⟩, hmatch, hfiles⟩

theorem Reachable.ok (h : Reachable L x) : x.Ok L := by
  obtain ⟨b, x0, tr, h0, hr⟩ := h
  exact hr.invariant (fun _ _ _ hi hs => hi.step hs) h0.ok

/-- A process runs in user mode exactly where it is inside of no call and of no
trap for a file. -/
theorem Ok.mode (h : x.Ok L) (hp : x.machine.kernel.currentPCB = some p) :
    context.SystemMode x.state.m ↔ x.machine.frames p ≠ none ∨ x.files p = true := by
  rw [h.code.mode hp (h.count hp), held]
  cases hf : x.machine.frames p <;> cases hfile : x.files p <;> simp [Machine.system, hf]

end Computer

end dlxos
