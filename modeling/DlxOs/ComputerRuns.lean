-- The frames never stand in the way of the kernel: each event of a step finds
-- the frame that it needs, and the system stacks have room. And every run of the
-- kernel is the part of the kernel in some run of the computer.
import DlxOs.FirstContext
import DlxOs.StackFrames

namespace dlxos

open Function runs

variable {L : context.Layout Pid} {s s' : context.State Pid} {p q x : Pid} {n : Pid → Option Nat}
  {k : Nat} {ev : context.Event Pid} {evs pass done rest : List (context.Event Pid)}
  {P : context.Proc} {w : dlx.Word} {m m' : Machine} {lab : Label} {a : System} {e : Entry}
  {cur : Option Pid} {A : context.StackPage}

/-! ## What an event needs -/

/-- What is left of the page of a system stack for the C code of a handler: the
page without the outermost frame, the words above it and one frame more. -/
def handlerStack : Nat :=
  MEMORY_PAGE_SIZE - 4 * (context.PROCESS_STACK_FRAME_SIZE + 8) -
    4 * context.PROCESS_STACK_FRAME_SIZE

/-- Nobody uses the page. -/
structure Unused (L : context.Layout Pid) (s : context.State Pid) (A : context.StackPage) :
    Prop where
  kernel : ∀ a, A.area.Owns a → ¬ L.Kernel a
  apart : ∀ p P, s.procs p = some P → ∀ a, A.area.Owns a → ¬ P.area.Owns a

/-- The part of the hardware, of the C code and of the page allocator: an
interrupt goes to system mode, a handler that is interrupted has its stack in
the page of its process, and a new process gets a page that nobody uses. -/
structure Allowed (L : context.Layout Pid) (s : context.State Pid) (ev : context.Event Pid) :
    Prop where
  latch : ∀ p t, ev = .interrupt p t → t.status &&& context.SYSMODE ≠ 0
  stack : ∀ p t, ev = .interrupt p t → context.SystemMode s.m → ∀ P, s.procs p = some P →
    ∃ A : context.StackPage, P.area = A.area ∧
      A.stackframe.toNat ≤ (s.m.get 29).toNat + handlerStack ∧
      (s.m.get 29).toNat ≤ A.stackframe.toNat
  page : ∀ q, ev = .fork q → ∃ A, Unused L s A

/-! ## A fork -/

/-- What a fork stores: the two pointers of the PCB, and the status of a user. -/
def forkWords (L : context.Layout Pid) (x : Pid) (A : context.StackPage) :
    List (dlx.Word × dlx.Word) :=
  [(L.pcb x, A.stackframe), (L.pcb x + 4, A.stackframe),
    (A.word context.PROCESS_STACK_ISR, context.PROCESS_INIT_ISR_USER)]

theorem isr_owned (A : context.StackPage) : A.area.Owns (A.word context.PROCESS_STACK_ISR) :=
  context.StackPage.owns (by decide)

theorem fork_keeps (hinv : context.Inv L s) (hx : s.procs x = none) (hA : Unused L s A) :
    context.Keeps L s (s.m.store (forkWords L x A)) := by
  have hisr := isr_owned A
  have hkernel := hA.kernel _ hisr
  constructor
  · apply dlx.updates_of_not_mem
    have hcur : L.currentPCB ≠ A.word context.PROCESS_STACK_ISR := fun he =>
      hkernel (.inl he.symm)
    simp only [forkWords, List.forall_mem_cons, List.not_mem_nil, false_imp_iff, implies_true,
      and_true]
    exact ⟨(L.currentPCB_ne x).1, (L.currentPCB_ne x).2, hcur⟩
  · intro p P hp a ha
    have hne : p ≠ x := by
      rintro rfl
      cases hx.symm.trans hp
    obtain ⟨h1, h2⟩ := L.pcb_ne p x hne
    have h3 := (L.pcb_ne x p hne.symm).2
    have hproc := hinv.proc p P hp
    apply dlx.updates_of_not_mem
    simp only [forkWords, List.forall_mem_cons, List.not_mem_nil, false_imp_iff, implies_true,
      and_true]
    rcases ha with rfl | rfl | ⟨y, hy, o, ho, rfl⟩
    · exact ⟨h1, h2, fun he => hkernel (.inr ⟨p, .inl he.symm⟩)⟩
    · refine ⟨h3.symm, fun he => h1 (by bv_omega), fun he => hkernel (.inr ⟨p, .inr he.symm⟩)⟩
    · have howns := hproc.stacked.owns hy (context.Saved.offset ho)
      refine ⟨fun he => hproc.kernel _ howns (.inr ⟨x, .inl he⟩),
        fun he => hproc.kernel _ howns (.inr ⟨x, .inr he⟩), fun he => ?_⟩
      rw [he] at howns
      exact hA.apart p P hp _ hisr howns

theorem saved_isr (A : context.StackPage) (mem : dlx.Word → dlx.Word) :
    (A.saved mem).regs.special .isr = mem (A.word context.PROCESS_STACK_ISR) := rfl

theorem init_isr_user : context.PROCESS_INIT_ISR_USER &&& context.SYSMODE = 0 := by
  decide

/-- A new process gets its stack and its first frame. -/
theorem fork_step (hinv : context.Inv L s) (hmode : context.SystemMode s.m) (hx : s.procs x = none)
    (hA : Unused L s A) : ∃ s', context.Step L s (.fork x) s' ∧
      ∃ y, s'.procs = update s.procs x (some ⟨A.area, [y]⟩) := by
  have hkernel := hA.kernel _ (isr_owned A)
  have h1 : L.pcb x ≠ A.word context.PROCESS_STACK_ISR := fun he =>
    hkernel (.inr ⟨x, .inl he.symm⟩)
  have h2 : L.pcb x + 4 ≠ A.word context.PROCESS_STACK_ISR := fun he =>
    hkernel (.inr ⟨x, .inr he.symm⟩)
  have h3 : L.pcb x ≠ L.pcb x + 4 := by bv_omega
  have hnodup : ((forkWords L x A).map (·.1)).Nodup := by
    simp only [forkWords, List.map_cons, List.map_nil, List.nodup_cons, List.mem_cons,
      List.not_mem_nil, or_false, not_or, not_false_eq_true, List.nodup_nil, and_true]
    exact ⟨⟨h3, h1⟩, h2⟩
  have hword (y : dlx.Word × dlx.Word) (hy : y ∈ forkWords L x A) :
      (s.m.store (forkWords L x A)).mem y.1 = y.2 := dlx.updates_of_mem hnodup hy
  refine ⟨⟨s.m.store (forkWords L x A), update s.procs x
    (some ⟨A.area, [A.saved (s.m.store (forkWords L x A)).mem]⟩)⟩,
    .fork hmode hmode hx (fork_keeps hinv hx hA) ⟨rfl, ?_, context.StackPage.holds _ _,
      hword (L.pcb x, A.stackframe) List.mem_cons_self,
      hword (L.pcb x + 4, A.stackframe) (List.mem_cons_of_mem _ List.mem_cons_self),
      hA.kernel, hA.apart⟩, A.saved (s.m.store (forkWords L x A)).mem, rfl⟩
  have hisr : (A.saved (s.m.store (forkWords L x A)).mem).regs.special .isr =
      context.PROCESS_INIT_ISR_USER := by
    rw [saved_isr]
    exact hword (_, context.PROCESS_INIT_ISR_USER)
      (List.mem_cons_of_mem _ (List.mem_cons_of_mem _ List.mem_cons_self))
  unfold context.Saved.Nested
  rw [hisr, init_isr_user]
  exact fun he => he rfl

/-! ## An event that finds its frame is possible -/

theorem handler_room {w : dlx.Word} (hlow : A.stackframe.toNat ≤ w.toNat + handlerStack) :
    A.area.low.toNat + 340 ≤ w.toNat := by
  have hframe := context.stackframe_toNat A
  have hstack : handlerStack = 64824 := rfl
  have htop : MEMORY_PAGE_SIZE - 4 * (context.PROCESS_STACK_FRAME_SIZE + 8) = 65164 := rfl
  rw [hframe, htop, hstack] at hlow
  change A.addr.toNat + 340 ≤ w.toNat
  omega

/-- A second interrupt finds the outermost frame only, so there is room. -/
theorem Matches.room (h : Matches L s cur n) (hp : cur = some p) (hn : n p = some 0 ∨ n p = some 1)
    (hmode : context.SystemMode s.m) (hP : s.procs p = some P) (harea : P.area = A.area)
    (hlow : A.stackframe.toNat ≤ (s.m.get 29).toNat + handlerStack)
    (hhigh : (s.m.get 29).toNat ≤ A.stackframe.toNat) : context.Room L p P.area s.m := by
  have hone : n p = some 1 := by
    rcases hn with hn | hn
    · exact absurd ((h.mode hp hn).mp hmode) (Nat.lt_irrefl 0)
    · exact hn
  obtain ⟨P', hP', hlen⟩ := h.proc hone
  obtain rfl := Option.some.inj (hP.symm.trans hP')
  obtain ⟨y, hsaved⟩ := List.length_eq_one_iff.mp hlen
  have hproc := h.inv.proc p P hP
  have hbase : s.m.mem (L.pcb p) = A.stackframe := by
    have hhome := hproc.stacked
    rw [hsaved, harea] at hhome
    rw [hproc.current y (by simp [hsaved]), hhome.1]
    rfl
  unfold context.Room
  rw [hbase, harea]
  exact ⟨handler_room hlow, hhigh⟩

theorem Matches.possible (h : Matches L s cur n) (hf : Finds cur n ev) (ha : Allowed L s ev) :
    ∃ s', context.Step L s ev s' := by
  have hproc {q : Pid} (hq : ∃ k, n q = some k) : ∃ Q, s.procs q = some Q := by
    obtain ⟨k, hk⟩ := hq
    obtain ⟨Q, hQ, _⟩ := h.proc hk
    exact ⟨Q, hQ⟩
  cases ev with
  | user =>
    obtain ⟨p, hp, hn⟩ := hf
    have huser : ¬ context.SystemMode s.m := fun hmode =>
      absurd ((h.mode hp hn).mp hmode) (Nat.lt_irrefl 0)
    exact ⟨_, .user huser rfl ⟨rfl, fun _ _ _ _ _ => rfl⟩⟩
  | kernel =>
    have hmode := h.system_mode hf
    exact ⟨_, .kernel hmode hmode ⟨rfl, fun _ _ _ _ _ => rfl⟩⟩
  | interrupt p t =>
    obtain ⟨hp, hn⟩ := hf
    obtain ⟨P, hP⟩ := hproc (hn.elim (⟨_, ·⟩) (⟨_, ·⟩))
    refine ⟨_, .interrupt (h.current p hp) hP (ha.latch p t rfl) fun hmode => ?_⟩
    obtain ⟨A, harea, hlow, hhigh⟩ := ha.stack p t rfl hmode P hP
    exact h.room hp hn hmode hP harea hlow hhigh
  | switch q =>
    obtain ⟨Q, hQ⟩ := hproc hf.2
    exact ⟨_, .switch (h.system_mode hf.1) hQ⟩
  | setResult q v =>
    obtain ⟨Q, hQ⟩ := hproc hf.2
    exact ⟨_, .setResult (h.system_mode hf.1) hQ⟩
  | setPtsize q v =>
    obtain ⟨Q, hQ⟩ := hproc hf.2
    exact ⟨_, .setPtsize (h.system_mode hf.1) hQ⟩
  | intrreturn p =>
    obtain ⟨hp, k, hn⟩ := hf
    obtain ⟨P, hP⟩ := hproc ⟨_, hn⟩
    exact ⟨_, .intrreturn ((h.mode hp hn).mpr (Nat.succ_pos k)) (h.current p hp) hP⟩
  | fork q =>
    obtain ⟨hk, hn⟩ := hf
    rw [← h.count, frameCount, Option.map_eq_none_iff] at hn
    obtain ⟨A, hA⟩ := ha.page q rfl
    obtain ⟨s', hs, _⟩ := fork_step h.inv (h.system_mode hk) hn hA
    exact ⟨s', hs⟩
  | exit q =>
    obtain ⟨Q, hQ⟩ := hproc hf.2
    exact ⟨_, .exit (h.system_mode hf.1) hQ⟩

/-! ## No event is stuck -/

/-- No stack has more than two frames. -/
theorem goesOn_le (hgo : GoesOn cur n evs) (hn : ∀ p k, n p = some k → k ≤ 2)
    (hk : evs.foldl countStep n p = some k) : k ≤ 2 := by
  induction evs generalizing cur n with
  | nil => exact hn p k hk
  | cons ev evs ih =>
    obtain ⟨hf, hgo⟩ := hgo
    refine ih hgo (fun q j hq => ?_) hk
    have hupdate {y : Pid} {z : Option Nat} (hz : ∀ i, z = some i → i ≤ 2)
        (hq : update n y z q = some j) : j ≤ 2 := by
      by_cases hqy : q = y
      · subst hqy
        exact hz j (by simpa using hq)
      · exact hn q j (by simpa [hqy] using hq)
    cases ev with
    | interrupt y t =>
      refine hupdate (fun i hi => ?_) hq
      rcases hf.2 with h0 | h0 <;> simp [h0] at hi <;> omega
    | intrreturn y =>
      refine hupdate (fun i hi => ?_) hq
      obtain ⟨i', hi', rfl⟩ := Option.map_eq_some_iff.mp hi
      have hle := hn y i' hi'
      omega
    | fork y => exact hupdate (fun i hi => by simp at hi; omega) hq
    | exit y => exact hupdate (fun i hi => by simp at hi) hq
    | _ => exact hn q j hq

theorem Computer.Ok.le_two {x : Computer} (h : x.Ok L) (p : Pid) (k : Nat)
    (hk : framesOf x.machine.system x.files p = some k) : k ≤ 2 := by
  have hheld := h.files.held_le p
  rw [framesOf_eq] at hk
  split at hk
  · cases hk
  · have hsum := Option.some.inj hk
    split at hsum <;> omega

/-! ## Some run of the computer for each run of the kernel -/

/-- A page for the system stack of each process. -/
structure Stacks (L : context.Layout Pid) where
  page : Pid → context.StackPage
  apart : ∀ p q, p ≠ q → ∀ a, (page p).area.Owns a → ¬ (page q).area.Owns a
  kernel : ∀ p a, (page p).area.Owns a → ¬ L.Kernel a

variable {S : Stacks L}

/-- The processes have their stacks in their pages. -/
def Stacks.Used (S : Stacks L) (s : context.State Pid) : Prop :=
  ∀ q P, s.procs q = some P → P.area = (S.page q).area

theorem Stacks.Used.unused (h : S.Used s) (hx : s.procs x = none) : Unused L s (S.page x) := by
  refine ⟨S.kernel x, fun p P hp a ha => ?_⟩
  rw [h p P hp]
  refine S.apart x p ?_ a ha
  rintro rfl
  cases hx.symm.trans hp

/-- Only a fork makes a new stack. -/
theorem Stacks.Used.step (h : S.Used s) (hs : context.Step L s ev s') (hfork : ∀ x, ev ≠ .fork x) :
    S.Used s' := by
  have hupdate {p : Pid} {P0 Q : context.Proc} (hp : s.procs p = some P0)
      (hQ : Q.area = P0.area) (q : Pid) (P : context.Proc)
      (hq : update s.procs p (some Q) q = some P) : P.area = (S.page q).area := by
    by_cases hqp : q = p
    · subst hqp
      obtain rfl : Q = P := by simpa using hq
      exact hQ.trans (h q P0 hp)
    · exact h q P (by simpa [hqp] using hq)
  cases hs with
  | user | kernel | switch => exact h
  | interrupt _ hp | setResult _ hp | setPtsize _ hp | intrreturn _ _ hp => exact hupdate hp rfl
  | fork => exact absurd rfl (hfork _)
  | @exit q0 =>
    intro q P hq
    by_cases hqp : q = q0
    · subst hqp
      simp at hq
    · exact h q P (by simpa [hqp] using hq)

theorem Stacks.Used.fork {y : context.Saved} (h : S.Used s)
    (hs : s'.procs = update s.procs x (some ⟨(S.page x).area, [y]⟩)) : S.Used s' := by
  intro q P hq
  rw [hs] at hq
  by_cases hqx : q = x
  · subst hqx
    obtain rfl : _ = P := by simpa using hq
    rfl
  · exact h q P (by simpa [hqx] using hq)

/-- An interrupt that goes to system mode. -/
def ToSystem (ev : context.Event Pid) : Prop :=
  ∀ p t, ev = .interrupt p t → t.status &&& context.SYSMODE ≠ 0

/-- The handler has used nothing of its stack yet. -/
theorem Stacks.Used.handler_stack (hS : S.Used s) (hmode : context.SystemMode s.m) (p : Pid) :
    ∃ s1, context.Step L s .kernel s1 ∧ S.Used s1 ∧ s1.m.get 29 = (S.page p).stackframe := by
  have hs : context.Step L s .kernel ⟨s.m.setR [(29, (S.page p).stackframe)], s.procs⟩ :=
    .kernel hmode hmode ⟨rfl, fun _ _ _ _ _ => rfl⟩
  exact ⟨_, hs, hS.step hs (by simp), dlx.Machine.get_setR_self (by decide)⟩

/-- One event, with code before it. -/
theorem Matches.next (h : Matches L s cur n) (hS : S.Used s) (hf : Finds cur n ev)
    (hlatch : ToSystem ev) (hcode : isCode ev = false) : ∃ s', Through L s [ev] s' ∧ S.Used s' := by
  have hpossible (hallowed : Allowed L s ev) (hfork : ∀ x, ev ≠ .fork x) :
      ∃ s', Through L s [ev] s' ∧ S.Used s' := by
    obtain ⟨s', hs⟩ := h.possible hf hallowed
    exact ⟨s', Through.nil.snoc hs hcode, hS.step hs hfork⟩
  cases ev with
  | fork x =>
    obtain ⟨hk, hn⟩ := hf
    rw [← h.count, frameCount, Option.map_eq_none_iff] at hn
    obtain ⟨s', hs, y, hprocs⟩ := fork_step h.inv (h.system_mode hk) hn (hS.unused hn)
    exact ⟨s', Through.nil.snoc hs hcode, hS.fork hprocs⟩
  | interrupt p t =>
    by_cases hmode : context.SystemMode s.m
    · obtain ⟨s1, hs1, hS1, h29⟩ := hS.handler_stack hmode p
      have h1 : Matches L s1 cur n := h.step hs1 (.inl rfl)
      have hallowed : Allowed L s1 (.interrupt p t) := by
        refine ⟨hlatch, fun p' t' he _ P hP => ?_, by simp⟩
        obtain ⟨rfl, _⟩ := context.Event.interrupt.inj he
        rw [h29]
        exact ⟨S.page p, hS1 p P hP, Nat.le_add_right .., le_rfl⟩
      obtain ⟨s', hs⟩ := h1.possible hf hallowed
      exact ⟨s', (Through.nil.code hs1).snoc hs hcode, hS1.step hs (by simp)⟩
    · exact hpossible ⟨hlatch, fun _ _ _ hmode' => absurd hmode' hmode, by simp⟩ (by simp)
  | _ => exact hpossible ⟨by simp, by simp, by simp⟩ (by simp)

theorem Matches.goes_through (h : Matches L s cur n) (hS : S.Used s) (hgo : GoesOn cur n evs)
    (hevs : ∀ ev ∈ evs, ToSystem ev ∧ isCode ev = false) :
    ∃ s', Through L s evs s' ∧ S.Used s' := by
  induction evs using List.reverseRecOn with
  | nil => exact ⟨s, .nil, hS⟩
  | append_singleton evs ev ih =>
    obtain ⟨hgo1, hf, _⟩ := goesOn_append.mp hgo
    obtain ⟨s1, ht1, hS1⟩ := ih hgo1 fun ev hev => hevs ev (List.mem_append_left _ hev)
    obtain ⟨hlatch, hcode⟩ := hevs ev (by simp)
    obtain ⟨s2, ht2, hS2⟩ := (h.through hgo1 ht1).next hS1 hf hlatch hcode
    exact ⟨s2, ht1.append ht2, hS2⟩

/-- The kernel always lets some process run. -/
theorem Good.current_after (h : Good m) (hs : m.Step lab m') (hp : m.kernel.currentPCB = some p) :
    ∃ q, m'.kernel.currentPCB = some q := by
  obtain ⟨⟨_, v, hv⟩, hf⟩ := h.step hs
  obtain ⟨ps, hq⟩ := current_cons (h.current ▸ hp : m.system.current = some p)
  have hne : m'.system.queue .runQueue ≠ [] := by
    rcases step_run hq hv with ⟨tail, he⟩ | ⟨_, _, he⟩ | ⟨_, q, rs, _, he⟩
    · rw [he]
      exact List.cons_ne_nil _ _
    · exact he
    · rw [he]
      exact List.append_ne_nil_of_right_ne_nil _ (List.cons_ne_nil _ _)
  obtain ⟨q, qs, hrun⟩ := List.exists_cons_of_ne_nil hne
  exact ⟨q, hf.good.current.trans (current_eq hrun)⟩

theorem step_result {v : Int} {r : Return} {b : System} {ev : Event}
    (hs : a.step v ev = some (b, r)) (hc : ∀ c, ev ≠ .call c) (hr : ev ≠ .resume) : r = none := by
  cases System.steps hs with
  | timer | contextSwitch | exit | forkFails | fork => rfl
  | call => exact absurd rfl (hc _)
  | resume => exact absurd rfl hr

theorem fork_head {v : Int} {r : Return} {b : System} {isUser : Bool}
    (hs : a.step v (.fork isUser true) = some (b, r)) :
    ∃ v, (a.queue .freepcbs).head? = some v := by
  cases System.steps hs with
  | @fork _ _ v _ hq => exact ⟨v, by rw [hq]; rfl⟩

/-- Some latch of an interrupt. -/
def someLatch : context.Latch := ⟨0, 0, 0, context.SYSMODE⟩

theorem someLatch_system : someLatch.status &&& context.SYSMODE ≠ 0 := by
  decide

/-- The events of each entry of the kernel. -/
theorem exists_passage (h : Good m) (hm : m.Step lab m')
    (hfork : ∀ loads, lab.1.event ≠ .fork false loads) : ∃ pass, Passage m m' lab pass ∧
      ∀ ev ∈ pass, ToSystem ev ∧ isCode ev = false := by
  have hready := hm.1
  obtain ⟨⟨_, v, hv⟩, _⟩ := h.step hm
  obtain ⟨e, r⟩ := lab
  dsimp only at hv hfork
  unfold Machine.Ready at hready
  have hall {l : List (context.Event Pid)} (hl : ∀ ev ∈ l, isCode ev = false ∧
      ∀ p t, ev = .interrupt p t → t = someLatch) : ∀ ev ∈ l, ToSystem ev ∧ isCode ev = false := by
    refine fun ev hev => ⟨fun p t he => ?_, (hl ev hev).1⟩
    rw [(hl ev hev).2 p t he]
    exact someLatch_system
  cases hev : e.event with
  | timer =>
    rw [hev] at hready hv
    obtain rfl := step_result hv (by simp) (by simp)
    obtain ⟨p, hp⟩ := Option.ne_none_iff_exists'.mp hready
    obtain ⟨q, hq⟩ := h.current_after hm hp
    exact ⟨_, .turn (t := someLatch) (.inl hev) hp hq, hall (by simp [isCode])⟩
  | contextSwitch =>
    rw [hev] at hready hv
    obtain rfl := step_result hv (by simp) (by simp)
    obtain ⟨p, hp, _⟩ := hready
    obtain ⟨q, hq⟩ := h.current_after hm hp
    exact ⟨_, .turn (t := someLatch) (.inr hev) hp hq, hall (by simp [isCode])⟩
  | exit =>
    rw [hev] at hready hv
    obtain rfl := step_result hv (by simp) (by simp)
    obtain ⟨p, hp, _⟩ := hready
    obtain ⟨q, hq⟩ := h.current_after hm hp
    refine ⟨_, .exit (t := someLatch) hev hp hq, hall fun ev hin => ?_⟩
    simp only [List.mem_append, List.mem_cons, List.mem_map, List.not_mem_nil, or_false] at hin
    rcases hin with (rfl | rfl) | ⟨w, _, rfl⟩ | rfl | rfl <;> simp [isCode]
  | fork isUser loads =>
    rw [hev] at hv
    obtain rfl := step_result hv (by simp) (by simp)
    obtain rfl : isUser = true := by
      by_contra hne
      exact hfork loads (by rw [hev, Bool.eq_false_of_not_eq_true hne])
    cases loads with
    | false =>
      cases hp : m.kernel.currentPCB with
      | none => exact ⟨_, .firstFails hev hp, by simp⟩
      | some p => exact ⟨_, .forkFails (t := someLatch) hev hp, hall (by simp [isCode])⟩
    | true =>
      obtain ⟨q, hq⟩ := fork_head hv
      rw [system_queue] at hq
      cases hp : m.kernel.currentPCB with
      | none => exact ⟨_, .first hev hp hq, hall (by simp [isCode])⟩
      | some p => exact ⟨_, .fork (t := someLatch) hev hp hq, hall (by simp [isCode])⟩
  | call c =>
    rw [hev] at hready
    obtain ⟨p, hp, _⟩ := hready
    obtain ⟨q, hq⟩ := h.current_after hm hp
    obtain ⟨_, hcall⟩ := h.call_step hm hev hp
    cases hcall with
    | returns =>
      refine ⟨_, .returns (t := someLatch) hev hp, hall fun ev hin => ?_⟩
      simp only [List.mem_append, List.mem_cons, List.mem_map, List.not_mem_nil, or_false] at hin
      rcases hin with rfl | ⟨w, _, rfl⟩ | rfl | rfl <;> simp [isCode]
    | sleeps => exact ⟨_, .sleeps (t := someLatch) (u := someLatch) hev hp hq,
        hall (by simp [isCode])⟩
  | resume =>
    rw [hev] at hready
    obtain ⟨p, hp, _⟩ := hready
    obtain ⟨q, hq⟩ := h.current_after hm hp
    obtain ⟨c, stop, _, hcall⟩ := h.resume_step hm hev hp
    cases hcall with
    | returns => exact ⟨_, .wakes hev hp, hall (by simp [isCode])⟩
    | sleeps => exact ⟨_, .sleepsAgain (u := someLatch) hev hp hq, hall (by simp [isCode])⟩

/-- The state of the stacks fits the state of the kernel, and nobody is in a trap
for a file. -/
structure Fits (S : Stacks L) (x : Computer) : Prop where
  ok : x.Ok L
  used : S.Used x.state
  files : ∀ p, x.files p = false

variable {x : Computer}

/-- Where the kernel has a step, the computer has one. -/
theorem Fits.step (h : Fits S x) (hm : x.machine.Step lab m)
    (hfork : ∀ loads, lab.1.event ≠ .fork false loads) :
    ∃ act y, x.Step L act y ∧ Fits S y ∧ act.entry = some lab ∧ y.machine = m := by
  obtain ⟨pass, hpass, hevs⟩ := exists_passage h.ok.good hm hfork
  have hturn : x.Turn ⟨some lab, pass⟩ m x.files :=
    .entry hm hpass fun p _ hp => absurd hp (by simp [h.files])
  obtain ⟨s, hs, hS⟩ := h.ok.code.goes_through h.used (h.ok.goes_on hturn) hevs
  have hstep : x.Step L ⟨some lab, pass⟩ ⟨m, s, x.files⟩ := ⟨hturn, hs⟩
  exact ⟨_, _, hstep, ⟨h.ok.step hstep, hS, h.files⟩, rfl, rfl⟩

namespace Computer

/-- What a step of the computer is for the kernel. -/
def kernelMove (y : Move Computer Act) : Move Machine (Option Label) :=
  ⟨y.pre.machine, y.label.entry, y.post.machine⟩

end Computer

/-- No process that the kernel forks is one of its own. -/
def UserForks (tr : List (Move Machine Label)) : Prop :=
  ∀ mv ∈ tr, ∀ loads, mv.label.1.event ≠ .fork false loads

theorem Fits.run {tr : List (Move Machine Label)} (h : Fits S x) (hr : Run Machine.Step m tr m')
    (hm : x.machine = m) (hfork : UserForks tr) :
    ∃ tr' y, Run (Computer.Step L) x tr' y ∧ Fits S y ∧ y.machine = m' ∧
      tr'.map Computer.kernelMove = tr.map fun mv => ⟨mv.pre, some mv.label, mv.post⟩ := by
  have hrule := hr.rule (I := fun tr m' => UserForks tr → ∃ tr' y,
    Run (Computer.Step L) x tr' y ∧ Fits S y ∧ y.machine = m' ∧
      tr'.map Computer.kernelMove = tr.map fun mv => ⟨mv.pre, some mv.label, mv.post⟩) ?_ ?_
  · exact hrule hfork
  · exact fun _ => ⟨[], x, .nil, h, hm, rfl⟩
  · rintro tr m1 lab m2 _ ih hs hfork
    obtain ⟨tr', y, hr', hy, rfl, hsame⟩ := ih fun mv hmv => hfork mv (by simp [hmv])
    obtain ⟨act, z, hstep, hfits, hentry, rfl⟩ := hy.step hs (hfork ⟨y.machine, lab, m2⟩ (by simp))
    refine ⟨_, _, hr'.snoc hstep, hfits, rfl, ?_⟩
    rw [List.map_append, List.map_append, hsame, List.map_singleton, List.map_singleton,
      Computer.kernelMove, hentry]

theorem Fits.start {b : Boot} (hb : boot b = .ok x.machine) (hs : context.Booted x.state)
    (hf : ∀ p, x.files p = false) : Fits S x where
  ok := Computer.Starts.ok ⟨hb, hs, hf⟩
  used q P hq := by
    rw [hs.2 q] at hq
    cases hq
  files := hf

/-- Every run of the kernel is the part of the kernel in some run of the
computer. -/
theorem every_run_has_frames {b : Boot} {m0 : Machine} {s0 : context.State Pid}
    {tr : List (Move Machine Label)} (S : Stacks L) (hb : boot b = .ok m0)
    (hs : context.Booted s0) (hr : Run Machine.Step m0 tr m) (hfork : UserForks tr) :
    ∃ tr' y, Run (Computer.Step L) ⟨m0, s0, fun _ => false⟩ tr' y ∧ Fits S y ∧ y.machine = m ∧
      tr'.map Computer.kernelMove = tr.map fun mv => ⟨mv.pre, some mv.label, mv.post⟩ := by
  have hstart : Fits S ⟨m0, s0, fun _ => false⟩ := .start hb hs fun _ => rfl
  exact hstart.run hr rfl hfork

/-! ## A memory for the processes -/

namespace physical

/-- The PCBs lie behind one another in the kernel. -/
theorem pcb_apart : ∀ p q : Pid, p ≠ q →
    BitVec.ofNat 32 (0x1000 + context.sizeofPCB * p.val) ≠
      BitVec.ofNat 32 (0x1000 + context.sizeofPCB * q.val) ∧
    BitVec.ofNat 32 (0x1000 + context.sizeofPCB * p.val) ≠
      BitVec.ofNat 32 (0x1000 + context.sizeofPCB * q.val) + 4 := by
  intro p q hpq
  have hp := p.isLt
  have hq := q.isLt
  have hne : p.val ≠ q.val := fun he => hpq (Fin.ext he)
  simp only [PROCESS_MAX_PROCS] at hp hq
  unfold context.sizeofPCB
  constructor <;> bv_omega

theorem current_apart : ∀ p : Pid,
    (0x800 : dlx.Word) ≠ BitVec.ofNat 32 (0x1000 + context.sizeofPCB * p.val) ∧
    (0x800 : dlx.Word) ≠ BitVec.ofNat 32 (0x1000 + context.sizeofPCB * p.val) + 4 := by
  intro p
  have hp := p.isLt
  simp only [PROCESS_MAX_PROCS] at hp
  unfold context.sizeofPCB
  constructor <;> bv_omega

def layout : context.Layout Pid where
  currentPCB := 0x800
  pcb p := BitVec.ofNat 32 (0x1000 + context.sizeofPCB * p.val)
  pcb_ne := pcb_apart
  currentPCB_ne := current_apart

theorem page_toNat (p : Pid) : (BitVec.ofNat 32 (MEMORY_PAGE_SIZE * (p.val + 1))).toNat =
    MEMORY_PAGE_SIZE * (p.val + 1) := by
  have hp := p.isLt
  simp only [PROCESS_MAX_PROCS] at hp
  simp only [MEMORY_PAGE_SIZE]
  bv_omega

theorem page_aligned (p : Pid) :
    (BitVec.ofNat 32 (MEMORY_PAGE_SIZE * (p.val + 1))).toNat % MEMORY_PAGE_SIZE = 0 := by
  rw [page_toNat]
  exact Nat.mul_mod_right ..

def stackPage (p : Pid) : context.StackPage :=
  ⟨BitVec.ofNat 32 (MEMORY_PAGE_SIZE * (p.val + 1)), page_aligned p⟩

theorem stackPage_owns {d : dlx.Word} (h : (stackPage p).area.Owns d) :
    MEMORY_PAGE_SIZE * (p.val + 1) ≤ d.toNat ∧ d.toNat < MEMORY_PAGE_SIZE * (p.val + 2) := by
  obtain ⟨hlow, hhigh⟩ := h
  have haddr : (stackPage p).addr.toNat = MEMORY_PAGE_SIZE * (p.val + 1) := page_toNat p
  change (stackPage p).addr.toNat ≤ d.toNat at hlow
  change d.toNat < (stackPage p).stackframe.toNat + 340 at hhigh
  rw [context.stackframe_toNat, haddr] at hhigh
  rw [haddr] at hlow
  simp only [MEMORY_PAGE_SIZE, context.PROCESS_STACK_FRAME_SIZE] at *
  omega

/-- All that the kernel keeps of the processes lies in its first page. -/
theorem kernel_low {d : dlx.Word} (h : layout.Kernel d) : d.toNat < MEMORY_PAGE_SIZE := by
  simp only [MEMORY_PAGE_SIZE]
  have hpcb (p : Pid) : (layout.pcb p).toNat < 0x10000 - 4 := by
    have hp := p.isLt
    change (BitVec.ofNat 32 (0x1000 + context.sizeofPCB * p.val)).toNat < _
    simp only [PROCESS_MAX_PROCS] at hp
    unfold context.sizeofPCB
    rw [BitVec.toNat_ofNat, Nat.mod_eq_of_lt (by omega)]
    omega
  rcases h with rfl | ⟨p, rfl | rfl⟩
  · decide
  · have hlt := hpcb p
    omega
  · have hlt := hpcb p
    bv_omega

theorem stackPage_apart (hpq : p ≠ q) (d : dlx.Word) (hd : (stackPage p).area.Owns d) :
    ¬ (stackPage q).area.Owns d := by
  intro hd'
  obtain ⟨hp1, hp2⟩ := stackPage_owns hd
  obtain ⟨hq1, hq2⟩ := stackPage_owns hd'
  have hne : p.val ≠ q.val := fun he => hpq (Fin.ext he)
  simp only [MEMORY_PAGE_SIZE] at *
  omega

theorem stackPage_kernel (d : dlx.Word) (hd : (stackPage p).area.Owns d) : ¬ layout.Kernel d := by
  intro hk
  have hlow := (stackPage_owns hd).1
  have hlt := kernel_low hk
  simp only [MEMORY_PAGE_SIZE] at *
  omega

def areas : Stacks layout where
  page := stackPage
  apart _ _ := stackPage_apart
  kernel _ := stackPage_kernel

/-- The memory is empty, and the CPU is in system mode. -/
def state : context.State Pid where
  m := ⟨⟨fun _ => 0, fun _ => 0, update (fun _ => 0) .status context.SYSMODE⟩, fun _ => 0⟩
  procs _ := none

theorem state_booted : context.Booted state := ⟨by decide, fun _ => rfl⟩

/-- What an entry of the kernel shows: the process that makes it, the event and
the result. -/
structure Seen where
  current : Option Pid
  event : Event
  result : Return
  deriving DecidableEq

def seen (y : Move Computer Act) : Option Seen :=
  y.label.entry.map fun l => ⟨y.pre.machine.kernel.currentPCB, l.1.event, l.2⟩

/-- A run that is computed, with its frames. -/
theorem exists_computer_run (es : List Event) (vs : List Seen)
    (hvs : ∀ v ∈ vs, ∀ loads, v.event ≠ .fork false loads)
    (h : (System.start.exec 30 es).any (fun x =>
      decide (x.1.map (fun mv => Seen.mk mv.pre.current mv.label.1 mv.label.2) = vs)) = true) :
    ∃ b x0 tr x, Computer.Starts b x0 ∧ Run (Computer.Step layout) x0 tr x ∧
      tr.map seen = vs.map some := by
  obtain ⟨m0, tr, m, hb, hr, hms⟩ := exists_run es
    (fun ms _ => ms.map (fun mv => Seen.mk mv.pre.current mv.label.1 mv.label.2) = vs) h
  have hknown : tr.map (fun mv => Seen.mk mv.pre.kernel.currentPCB mv.label.1.event mv.label.2) =
      vs := by
    rw [← hms, systemMoves, List.map_map]
    refine List.map_congr_left fun mv hmv => ?_
    rw [((Reachable.start hb).mem hr hmv).good.current]
    rfl
  have hfork : UserForks tr := fun mv hmv => hvs _ (hknown ▸ List.mem_map_of_mem hmv)
  obtain ⟨tr', y, hr', _, _, hsame⟩ := every_run_has_frames areas hb state_booted hr hfork
  refine ⟨Boot.small, _, tr', y, ⟨hb, state_booted, fun _ => rfl⟩, hr', ?_⟩
  have hseen := congrArg (List.map fun y : Move Machine (Option Label) =>
    y.label.map fun l => Seen.mk y.pre.kernel.currentPCB l.1.event l.2) hsame
  rw [List.map_map, List.map_map] at hseen
  rw [← hknown, List.map_map]
  exact hseen

/-- A step of a run that was computed. -/
theorem seen_split {x0 x : Computer} {tr : List (Move Computer Act)}
    {vs1 vs2 : List (Option Seen)} {v : Seen} (hr : Run (Computer.Step L) x0 tr x)
    (h : tr.map seen = vs1 ++ some v :: vs2) :
    ∃ tr1 x1 l evs x2 tr2, Run (Computer.Step L) x0 tr1 x1 ∧ x1.Step L ⟨some l, evs⟩ x2 ∧
      Run (Computer.Step L) x2 tr2 x ∧ tr1.map seen = vs1 ∧ tr2.map seen = vs2 ∧
      x1.machine.kernel.currentPCB = v.current ∧ l.1.event = v.event ∧ l.2 = v.result := by
  obtain ⟨tr1, tr', rfl, h1, h'⟩ := List.map_eq_append_iff.mp h
  obtain ⟨mv, tr2, rfl, hmv, h2⟩ := List.map_eq_cons_iff.mp h'
  obtain ⟨x1, hr1, hr'⟩ := hr.split
  obtain ⟨rfl, hs, hr2⟩ := hr'.uncons
  obtain ⟨pre, ⟨entry, evs⟩, post⟩ := mv
  obtain ⟨l, rfl, rfl⟩ := Option.map_eq_some_iff.mp hmv
  exact ⟨tr1, _, l, evs, _, tr2, hr1, hs, hr2, h1, h2, rfl, rfl, rfl⟩

/-- One process waits, and the other one signals. -/
def waitAndSignal : List Event :=
  [.fork true true, .fork true true, .call (.semCreate 0), .call (.semWait 0),
    .call (.semSignal 0), .contextSwitch, .resume]

/-- What happens before the wait, and what happens before it returns. -/
def beforeWait : List Seen :=
  [⟨none, .fork true true, none⟩, ⟨some 31, .fork true true, none⟩,
    ⟨some 31, .call (.semCreate 0), some (.semCreate 0, 0)⟩]

def duringWait : List Seen :=
  [⟨some 30, .call (.semSignal 0), some (.semSignal 0, 1)⟩, ⟨some 30, .contextSwitch, none⟩]

theorem waits : ∃ b x0 tr x, Computer.Starts b x0 ∧ Run (Computer.Step layout) x0 tr x ∧
    tr.map seen = (beforeWait ++ Seen.mk (some 31) (.call (.semWait 0)) none :: (duringWait ++
      [Seen.mk (some 31) .resume (some (.semWait 0, 1))])).map some :=
  exists_computer_run waitAndSignal _ (by simp [beforeWait, duringWait]) (by decide +kernel)

end physical

/-! ## Frames in every run -/

/-- In every state of every run, each live process has the frames that the kernel
counts with: one if it does not run, one for a call that is not over, and one
in a trap that allows interrupts. The current process is in user mode exactly
where it is inside of neither. -/
theorem frames_of_the_stacks {x : Computer} (h : x.Reachable L) :
    (∀ p, p ∈ x.machine.queue .freepcbs → x.state.procs p = none) ∧
    (∀ p, p ∉ x.machine.queue .freepcbs → ∃ P, x.state.procs p = some P ∧ P.saved.length =
      (if x.machine.kernel.currentPCB = some p then 0 else 1) +
        (if x.machine.frames p = none then 0 else 1) + if x.files p = true then 1 else 0) ∧
    ∀ p, x.machine.kernel.currentPCB = some p →
      x.state.m.mem L.currentPCB = L.pcb p ∧
        (context.SystemMode x.state.m ↔ x.machine.frames p ≠ none ∨ x.files p = true) := by
  have hok := h.ok
  refine ⟨fun p hp => ?_, fun p hp => ?_, fun p hp => ⟨hok.code.current p hp, hok.mode hp⟩⟩
  · have hcount := congrFun hok.code.count p
    rw [framesOf_eq, system_queue, if_pos hp, frameCount, Option.map_eq_none_iff] at hcount
    exact hcount
  · have hcount := congrFun hok.code.count p
    rw [framesOf_eq, system_queue, if_neg hp, frameCount, Option.map_eq_some_iff] at hcount
    obtain ⟨P, hP, hlen⟩ := hcount
    refine ⟨P, hP, ?_⟩
    rw [hlen, hok.good.current, held, Nat.add_assoc]
    cases hfile : x.files p <;> simp [Machine.system]

/-- The process whose wait is about to return has the frame of its trap. -/
theorem frames_after_signal : ∃ x P, Computer.Reachable physical.layout x ∧
    x.state.procs 31 = some P ∧ P.saved.length = 1 ∧ context.SystemMode x.state.m := by
  obtain ⟨b, x0, tr, x, hstart, hr, hseen⟩ := physical.waits
  rw [List.map_append, List.map_cons, List.map_append, ← List.cons_append, ← List.append_assoc]
    at hseen
  obtain ⟨tr1, x1, l, evs, x2, tr2, hr1, hs, _, _, _, hcur, he, _⟩ :=
    physical.seen_split hr hseen
  have hreach : x1.Reachable physical.layout := ⟨b, x0, tr1, hstart, hr1⟩
  obtain ⟨_, hlive, hmode⟩ := frames_of_the_stacks hreach
  obtain ⟨m2, s2, f2⟩ := x2
  cases hs.turn with
  | entry hm _ htimer =>
    have hready := hm.1
    unfold Machine.Ready at hready
    rw [he] at hready
    obtain ⟨p, hp, hframe⟩ := hready
    obtain rfl := Option.some.inj (hcur.symm.trans hp)
    have hfile : x1.files 31 = false := by
      by_contra hne
      cases he.symm.trans (htimer 31 hp (Bool.eq_true_of_not_eq_false hne))
    obtain ⟨P, hP, hlen⟩ := hlive 31 (hreach.ok.good.not_free hp)
    rw [if_pos hp, if_neg hframe, hfile] at hlen
    exact ⟨x1, P, hreach, hP, hlen, (hmode 31 hp).2.mpr (.inl hframe)⟩

/-- In every run, whatever the code between the events of a step has done so
far, the next event is possible, if the hardware, the C code and the allocator
do their part. No stack has more than two frames meanwhile. -/
theorem no_event_is_stuck {x : Computer} {act : Act} {f : Pid → Bool} (hx : x.Reachable L)
    (hturn : x.Turn act m f) (hsplit : act.events = done ++ ev :: rest)
    (hdone : Through L x.state done s) :
    (∀ p P, s.procs p = some P → P.saved.length ≤ 2) ∧
      (Allowed L s ev → ∃ s', context.Step L s ev s') := by
  have hok := hx.ok
  have hgo := hok.goes_on hturn
  rw [hsplit, goesOn_append] at hgo
  obtain ⟨hgo, hf, _⟩ := hgo
  have hmatch := hok.code.through hgo hdone
  refine ⟨fun p P hP => ?_, hmatch.possible hf⟩
  refine goesOn_le (p := p) hgo hok.le_two ?_
  rw [← hmatch.count, frameCount, hP]
  rfl

/-- A character comes in while `Read` is on: the handler has room for a second
frame. -/
theorem interrupt_in_a_file_trap : ∃ (x : Computer) (s s' : context.State Pid),
    x.Reachable physical.layout ∧ x.machine.kernel.currentPCB = some 31 ∧ x.files 31 = true ∧
    Through physical.layout x.state [] s ∧ context.SystemMode s.m ∧
    context.Step physical.layout s (.interrupt 31 someLatch) s' := by
  obtain ⟨m0, tr, m, hb, hr, hcur, hstop, hevents⟩ := exists_run [.fork true true]
    (fun ms a => a.current = some 31 ∧ a.stopped 31 = none ∧
      ms.map (fun mv => mv.label.1) = [.fork true true]) (by decide +kernel)
  have hfork : UserForks tr := by
    intro mv hmv loads he
    have hin : mv.label.1.event ∈ [Event.fork true true] := by
      rw [← hevents, systemMoves, List.map_map]
      exact List.mem_map_of_mem hmv
    simp [he] at hin
  obtain ⟨tr', y, hr', hfits, rfl, _⟩ :=
    every_run_has_frames physical.areas hb physical.state_booted hr hfork
  have hp : y.machine.kernel.currentPCB = some 31 := hfits.ok.good.current.trans hcur
  have hf : y.machine.frames 31 = none := by simpa [Machine.system] using hstop
  have hlatch (p : Pid) (t : context.Latch)
      (he : (.interrupt 31 someLatch : context.Event Pid) = .interrupt p t) :
      t.status &&& context.SYSMODE ≠ 0 := by
    obtain ⟨_, rfl⟩ := context.Event.interrupt.inj he
    exact someLatch_system
  -- the trap of `Read`
  have hturn : y.Turn ⟨none, [.interrupt 31 someLatch]⟩ y.machine (update y.files 31 true) :=
    .fileTrap hp hf (hfits.files 31)
  obtain ⟨s1, ht1, hS1⟩ := hfits.ok.code.goes_through hfits.used (hfits.ok.goes_on hturn)
    fun ev hev => ⟨fun p t he => hlatch p t (List.mem_singleton.mp hev ▸ he),
      List.mem_singleton.mp hev ▸ rfl⟩
  have hstep : y.Step physical.layout ⟨none, [.interrupt 31 someLatch]⟩
      ⟨y.machine, s1, update y.files 31 true⟩ := ⟨hturn, ht1⟩
  have hreach : Computer.Reachable physical.layout ⟨y.machine, s1, update y.files 31 true⟩ :=
    ⟨_, _, _, ⟨hb, physical.state_booted, fun _ => rfl⟩, hr'.snoc hstep⟩
  have hfile : update y.files 31 true 31 = true := update_self ..
  have hmode : context.SystemMode s1.m := (hreach.ok.mode hp).mpr (.inr hfile)
  obtain ⟨s2, hs2, hS2, h29⟩ := hS1.handler_stack hmode 31
  have hallowed : Allowed physical.layout s2 (.interrupt 31 someLatch) := by
    refine ⟨hlatch, fun p t he _ P hP => ?_, by simp⟩
    obtain ⟨rfl, _⟩ := context.Event.interrupt.inj he
    rw [h29]
    exact ⟨physical.stackPage 31, hS2 31 P hP, Nat.le_add_right .., le_rfl⟩
  have hdone := Through.nil.code hs2
  have hsplit : [.interrupt 31 someLatch, .intrreturn 31] =
      ([] ++ .interrupt 31 someLatch :: [.intrreturn 31] : List (context.Event Pid)) := rfl
  obtain ⟨s3, hs3⟩ := (no_event_is_stuck hreach (.keyboard hp) hsplit hdone).2 hallowed
  refine ⟨_, s2, s3, hreach, hp, hfile, hdone, ?_, hs3⟩
  cases hs2 with
  | kernel _ hmode2 => exact hmode2

end dlxos
