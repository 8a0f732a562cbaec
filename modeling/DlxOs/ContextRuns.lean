-- Context save and restore over whole runs: what holds of the frames in every
-- state, and that a process comes back with the registers it had.
import DlxOs.ContextSwitch

namespace dlxos.context

open Function dlx

/-! ## Addresses in a stack -/

section Addresses

variable {b o : Word} {w : Word × Word}

theorem toNat_offset (hb : b.toNat + 340 ≤ 2 ^ 32) (ho : o ∈ pushedOffsets) :
    (b + o).toNat = b.toNat + o.toNat := by
  have hlt : o.toNat < 340 := pushedOffsets_lt o ho
  rw [BitVec.toNat_add, Nat.mod_eq_of_lt (by omega)]

/-- The words of a frame lie between its address and the end of the frame. -/
theorem offset_range (hb : b.toNat + 340 ≤ 2 ^ 32) (ho : o ∈ pushedOffsets) :
    b.toNat ≤ (b + o).toNat ∧ (b + o).toNat < b.toNat + 340 := by
  have hlt : o.toNat < 340 := pushedOffsets_lt o ho
  rw [toNat_offset hb ho]
  omega

theorem Saved.offset {x : Saved} (hw : w ∈ x.words) : w.1 ∈ pushedOffsets :=
  pushed_offset (pushed_of_frame hw)

theorem setResult_r {x : Saved} {v : Word} {i : Reg} (hi : i ≠ 1) :
    (x.setResult v).regs.r i = x.regs.r i := update_of_ne hi ..

theorem setResult_r1 {x : Saved} {v : Word} : (x.setResult v).regs.r 1 = v := by
  simp only [Saved.setResult, update_self]

/-- A result changes one word of a frame. -/
theorem words_setResult {x : Saved} {v : Word} (hw : w ∈ (x.setResult v).words) :
    w = (44, v) ∨ w.1 ≠ 44 ∧ w ∈ x.words := by
  have hints : ∀ y ∈ intRegs, y = (44, 1) ∨ y.2 ≠ 1 ∧ y.1 ≠ 44 :=
    List.forall_iff_forall_mem.mp (by decide)
  have hfloats : ∀ y ∈ floatRegs, y.1 ≠ 44 ∧ y.1 + 4 ≠ 44 :=
    List.forall_iff_forall_mem.mp (by decide)
  have hspecials : ∀ y ∈ specialRegs, y.2.2 ≠ 44 := List.forall_iff_forall_mem.mp (by decide)
  have hin {y : Word × Word} (hy : y ∈ regWords x.regs) : y ∈ x.words := List.mem_append_left _ hy
  unfold Saved.words frameWords regWords at hw
  simp only [List.cons_append, List.mem_cons, List.mem_append, List.mem_map, List.mem_flatMap,
    List.not_mem_nil, or_false] at hw
  rcases hw with rfl | (((⟨y, hy, rfl⟩ | rfl) | ⟨y, hy, hw⟩) | ⟨y, hy, rfl⟩) | rfl
  · rw [setResult_r (by decide)]
    exact Or.inr ⟨by simp, hin (by simp [regWords])⟩
  · rcases hints y hy with rfl | ⟨hreg, hoff⟩
    · exact Or.inl (by rw [setResult_r1])
    · rw [setResult_r hreg]
      exact Or.inr ⟨hoff, hin (by unfold regWords; grind)⟩
  · rw [setResult_r (by decide)]
    exact Or.inr ⟨by simp, hin (by simp [regWords])⟩
  · have hy' := hfloats y hy
    rcases hw with rfl | rfl
    · exact Or.inr ⟨hy'.1, hin (float_mem hy).1⟩
    · exact Or.inr ⟨hy'.2, hin (float_mem hy).2⟩
  · exact Or.inr ⟨hspecials y hy, hin (special_mem hy)⟩
  · exact Or.inr ⟨by simp, List.mem_append_right _ (List.mem_singleton_self _)⟩

theorem setPtsize_special {x : Saved} {v : Word} {y : Special} (hy : y ≠ .ptsize) :
    (x.setPtsize v).regs.special y = x.regs.special y := update_of_ne hy ..

theorem setPtsize_ptsize {x : Saved} {v : Word} : (x.setPtsize v).regs.special .ptsize = v := by
  simp only [Saved.setPtsize, update_self]

/-- And so does a number of pages. -/
theorem words_setPtsize {x : Saved} {v : Word} (hw : w ∈ (x.setPtsize v).words) :
    w = (316, v) ∨ w.1 ≠ 316 ∧ w ∈ x.words := by
  have hints : ∀ y ∈ intRegs, y.1 ≠ 316 := List.forall_iff_forall_mem.mp (by decide)
  have hfloats : ∀ y ∈ floatRegs, y.1 ≠ 316 ∧ y.1 + 4 ≠ 316 :=
    List.forall_iff_forall_mem.mp (by decide)
  have hspecials : ∀ y ∈ specialRegs, y.2 = (.ptsize, 316) ∨ y.2.1 ≠ .ptsize ∧ y.2.2 ≠ 316 :=
    List.forall_iff_forall_mem.mp (by decide)
  have hin {y : Word × Word} (hy : y ∈ regWords x.regs) : y ∈ x.words := List.mem_append_left _ hy
  unfold Saved.words frameWords regWords at hw
  simp only [List.cons_append, List.mem_cons, List.mem_append, List.mem_map, List.mem_flatMap,
    List.not_mem_nil, or_false] at hw
  rcases hw with rfl | (((⟨y, hy, rfl⟩ | rfl) | ⟨y, hy, hw⟩) | ⟨y, hy, rfl⟩) | rfl
  · exact Or.inr ⟨by simp, hin (by simp [Saved.setPtsize, regWords])⟩
  · exact Or.inr ⟨hints y hy, hin (by unfold regWords; grind [Saved.setPtsize])⟩
  · exact Or.inr ⟨by simp, hin (by simp [Saved.setPtsize, regWords])⟩
  · have hy' := hfloats y hy
    rcases hw with rfl | rfl
    · exact Or.inr ⟨hy'.1, hin (float_mem hy).1⟩
    · exact Or.inr ⟨hy'.2, hin (float_mem hy).2⟩
  · rcases hspecials y hy with hsize | ⟨hreg, hoff⟩
    · exact Or.inl (by rw [hsize, setPtsize_ptsize])
    · rw [setPtsize_special hreg]
      exact Or.inr ⟨hoff, hin (special_mem hy)⟩
  · exact Or.inr ⟨by simp, List.mem_append_right _ (List.mem_singleton_self _)⟩

end Addresses

/-! ## The stack of frames -/

/-- Each frame is below the one before it and links to it. The outermost frame is
at home, and it alone belongs to code in user mode. -/
def Stacked (A : Area) : List Saved → Prop
  | [] => True
  | [x] => x.base = A.home ∧ ¬ x.Nested
  | x :: y :: l => x.Nested ∧ A.low.toNat ≤ x.base.toNat ∧ x.base.toNat + 340 ≤ y.base.toNat ∧
      x.prev = y.base ∧ Stacked A (y :: l)

section Stacked

variable {A : Area} {x y : Saved} {l : List Saved} {a : Word}

theorem Stacked.tail (h : Stacked A (x :: l)) : Stacked A l := by
  cases l with
  | nil => trivial
  | cons y l => exact h.2.2.2.2

theorem Stacked.within (h : Stacked A (x :: l)) :
    A.low.toNat ≤ x.base.toNat ∧ x.base.toNat ≤ A.home.toNat := by
  induction l generalizing x with
  | nil =>
    obtain ⟨hbase, -⟩ := h
    have hlow := A.low_le
    rw [hbase]
    omega
  | cons y l ih =>
    obtain ⟨-, hlow, hbelow, -, hrest⟩ := h
    have hy := ih hrest
    omega

theorem Stacked.above (h : Stacked A (x :: l)) : ∀ y ∈ l, x.base.toNat + 340 ≤ y.base.toNat := by
  induction l generalizing x with
  | nil => simp
  | cons z l ih =>
    intro y hy
    obtain ⟨-, -, hbelow, -, hrest⟩ := h
    rcases List.mem_cons.mp hy with rfl | hy
    · exact hbelow
    · have hz := ih hrest y hy
      omega

theorem Stacked.mem (h : Stacked A l) (hx : x ∈ l) :
    A.low.toNat ≤ x.base.toNat ∧ x.base.toNat ≤ A.home.toNat := by
  induction l with
  | nil => cases hx
  | cons y l ih =>
    rcases List.mem_cons.mp hx with rfl | hx
    · exact h.within
    · exact ih h.tail hx

theorem Stacked.fits (h : Stacked A l) (hx : x ∈ l) : x.base.toNat + 340 ≤ 2 ^ 32 := by
  have hmem := h.mem hx
  have hfits := A.fits
  omega

theorem Stacked.owns (h : Stacked A l) (hx : x ∈ l) {o : Word} (ho : o ∈ pushedOffsets) :
    A.Owns (x.base + o) := by
  have hrange := offset_range (h.fits hx) ho
  have hmem := h.mem hx
  unfold Area.Owns
  omega

/-- The word that takes the number of pages. -/
theorem home_owned :
    A.Owns (A.home + 316) ∧ (A.home + 316).toNat = A.home.toNat + 316 := by
  have hfits := A.fits
  have hlow := A.low_le
  have hnat : (A.home + 316).toNat = A.home.toNat + 316 := by bv_omega
  unfold Area.Owns
  omega

/-- Only the outermost frame is at home. -/
theorem Stacked.below_home (h : Stacked A l) (hx : x ∈ l) :
    x.base = A.home ∨ x.base.toNat + 340 ≤ A.home.toNat := by
  induction l with
  | nil => cases hx
  | cons y l ih =>
    rcases List.mem_cons.mp hx with rfl | hx
    · cases l with
      | nil => exact .inl h.1
      | cons z l =>
        have hz := h.tail.within
        have hbelow := h.2.2.1
        exact .inr (by omega)
    · exact ih h.tail hx

/-- What is stored in the frames leaves them where they are. -/
theorem Stacked.map {f : Saved → Saved} (h : Stacked A l) (hbase : ∀ x, (f x).base = x.base)
    (hprev : ∀ x, (f x).prev = x.prev) (hnested : ∀ x, (f x).Nested ↔ x.Nested) :
    Stacked A (l.map f) := by
  induction l with
  | nil => trivial
  | cons x l ih =>
    cases l with
    | nil => exact ⟨(hbase x).trans h.1, fun hn => h.2 ((hnested x).mp hn)⟩
    | cons y l =>
      obtain ⟨hn, hlow, hbelow, hlink, hrest⟩ := h
      refine ⟨(hnested x).mpr hn, ?_, ?_, ?_, ih hrest⟩
      · rwa [hbase]
      · rwa [hbase, hbase]
      · rwa [hprev, hbase]

/-- The frames have no word in common. -/
theorem Stacked.word_ne (h : Stacked A (x :: l)) (hy : y ∈ l) {o o' : Word}
    (ho : o ∈ pushedOffsets) (ho' : o' ∈ pushedOffsets) : y.base + o ≠ x.base + o' := by
  have hrange := offset_range (h.fits (List.mem_cons_of_mem _ hy)) ho
  have hrange' := offset_range (h.fits List.mem_cons_self) ho'
  have habove := h.above y hy
  intro he
  rw [he] at hrange
  omega

end Stacked

section Invariant

variable {Pid : Type} {L : Layout Pid} {s s' : State Pid} {p q : Pid} {P Q : Proc}
  {m m' : Machine} {a : Word}

/-! ## The invariant -/

/-- The frames of one process. -/
structure ProcInv (L : Layout Pid) (m : Machine) (p : Pid) (P : Proc) : Prop where
  kernel : ∀ a, P.area.Owns a → ¬ L.Kernel a
  stacked : Stacked P.area P.saved
  holds : ∀ x ∈ P.saved, x.Holds m.mem
  current : ∀ x ∈ P.saved.head?, m.mem (L.pcb p) = x.base
  idle : P.saved = [] → m.mem (L.pcb p + 4) = P.area.home + 340

structure Inv (L : Layout Pid) (s : State Pid) : Prop where
  proc : ∀ p P, s.procs p = some P → ProcInv L s.m p P
  apart : ∀ p q P Q, p ≠ q → s.procs p = some P → s.procs q = some Q →
    ∀ a, P.area.Owns a → ¬ Q.area.Owns a
  mode : ∀ p P, s.m.mem L.currentPCB = L.pcb p → s.procs p = some P →
    (SystemMode s.m ↔ P.saved ≠ [])
  waiting : ∀ p P, s.m.mem L.currentPCB ≠ L.pcb p → s.procs p = some P → P.saved ≠ []

theorem ProcInv.congr (h : ProcInv L m p P) (hsame : ∀ a, P.Words L p a → m'.mem a = m.mem a) :
    ProcInv L m' p P where
  kernel := h.kernel
  stacked := h.stacked
  holds := fun x hx w hw =>
    (hsame _ (Or.inr (Or.inr ⟨x, hx, w, hw, rfl⟩))).trans (h.holds x hx w hw)
  current := fun x hx => (hsame _ (Or.inl rfl)).trans (h.current x hx)
  idle := fun hnil => (hsame _ (Or.inr (Or.inl rfl))).trans (h.idle hnil)

/-- In system mode every process has a frame. -/
theorem Inv.saved_ne_nil (h : Inv L s) (hmode : SystemMode s.m) (hp : s.procs p = some P) :
    P.saved ≠ [] := by
  by_cases hcur : s.m.mem L.currentPCB = L.pcb p
  · exact (h.mode p P hcur hp).mp hmode
  · exact h.waiting p P hcur hp

/-- And in user mode the current one has none. -/
theorem Inv.saved_nil (h : Inv L s) (huser : ¬ SystemMode s.m)
    (hcur : s.m.mem L.currentPCB = L.pcb p) (hp : s.procs p = some P) : P.saved = [] := by
  by_contra hne
  exact huser ((h.mode p P hcur hp).mpr hne)

/-- A word of one process is no word of another's stack, and not in its PCB. -/
theorem Inv.words_apart (h : Inv L s) (hne : q ≠ p) (hp : s.procs p = some P)
    (hq : s.procs q = some Q) (ha : Q.Words L q a) :
    ¬ P.area.Owns a ∧ a ≠ L.pcb p ∧ a ≠ L.pcb p + 4 ∧ a ≠ L.currentPCB := by
  have hpq := L.pcb_ne p q hne.symm
  have hqp := L.pcb_ne q p hne
  rcases ha with rfl | rfl | ⟨x, hx, w, hw, rfl⟩
  · exact ⟨fun ho => (h.proc p P hp).kernel _ ho (Or.inr ⟨q, Or.inl rfl⟩), hqp.1, hqp.2,
      (L.currentPCB_ne q).1.symm⟩
  · exact ⟨fun ho => (h.proc p P hp).kernel _ ho (Or.inr ⟨q, Or.inr rfl⟩), hpq.2.symm,
      fun he => hqp.1 (by simpa using he), (L.currentPCB_ne q).2.symm⟩
  · have howns : Q.area.Owns (x.base + w.1) := (h.proc q Q hq).stacked.owns hx (Saved.offset hw)
    have hkernel := (h.proc q Q hq).kernel _ howns
    exact ⟨h.apart q p Q P hne hq hp _ howns, fun he => hkernel (Or.inr ⟨p, Or.inl he⟩),
      fun he => hkernel (Or.inr ⟨p, Or.inr he⟩), fun he => hkernel (Or.inl he)⟩

theorem pcb_injective (hpq : L.pcb p = L.pcb q) : p = q := by
  by_contra hne
  exact (L.pcb_ne p q hne).1 hpq

/-- Code that keeps the frames, and the mode. -/
theorem Inv.keeps (h : Inv L s) (hk : Keeps L s m') (hmode : SystemMode m' ↔ SystemMode s.m) :
    Inv L { s with m := m' } where
  proc := fun p P hp => (h.proc p P hp).congr (hk.2 p P hp)
  apart := h.apart
  mode := fun p P hcur hp => hmode.trans (h.mode p P (hk.1 ▸ hcur) hp)
  waiting := fun p P hcur hp => h.waiting p P (hk.1 ▸ hcur) hp

/-- No word of a stack is a word of the kernel. -/
theorem ProcInv.kernel_ne (h : ProcInv L m p P) (ha : P.area.Owns a) :
    L.currentPCB ≠ a ∧ L.pcb p ≠ a ∧ L.pcb p + 4 ≠ a :=
  ⟨fun he => h.kernel a ha (Or.inl he.symm), fun he => h.kernel a ha (Or.inr ⟨p, Or.inl he.symm⟩),
    fun he => h.kernel a ha (Or.inr ⟨p, Or.inr he.symm⟩)⟩

theorem ProcInv.words_ne (h : ProcInv L m p P) (ha : P.Words L p a) : a ≠ L.currentPCB := by
  rcases ha with rfl | rfl | ⟨x, hx, w, hw, rfl⟩
  · exact (L.currentPCB_ne p).1.symm
  · exact (L.currentPCB_ne p).2.symm
  · exact (h.kernel_ne (h.stacked.owns hx (Saved.offset hw))).1.symm

/-! ## A frame goes on the stack and comes back -/

@[simp] theorem latch_mem {t : Latch} : (latch m t).mem = m.mem := rfl
@[simp] theorem latch_get {t : Latch} {i : Reg} : (latch m t).get i = m.get i := rfl
@[simp] theorem latch_r {t : Latch} : (latch m t).cpu.r = m.cpu.r := rfl
@[simp] theorem latch_f {t : Latch} : (latch m t).cpu.f = m.cpu.f := rfl
@[simp] theorem latch_isr {t : Latch} :
    (latch m t).cpu.special .isr = m.cpu.special .status := by simp [latch, updates]
@[simp] theorem latch_ir31 {t : Latch} : (latch m t).cpu.special .ir31 = m.cpu.r 31 := by
  simp [latch, updates]
@[simp] theorem latch_status {t : Latch} : (latch m t).cpu.special .status = t.status := by
  simp [latch, updates]

/-- Where the new frame is: at home, or below the current frame. -/
theorem push_base {t : Latch} (h : Inv L s) (hcur : s.m.mem L.currentPCB = L.pcb p)
    (hp : s.procs p = some P) (hroom : SystemMode s.m → Room L p P.area s.m) :
    Stacked P.area (push L (latch s.m t) P).saved := by
  have hprev : (latch s.m t).mem ((latch s.m t).mem L.currentPCB) = s.m.mem (L.pcb p) := by
    rw [latch_mem, hcur]
  unfold push
  rw [hprev]
  by_cases hmode : SystemMode s.m
  · -- the code that traps has a frame, and its stack pointer is below it
    obtain ⟨x, l, hsaved⟩ := List.exists_cons_of_ne_nil ((h.mode p P hcur hp).mp hmode)
    obtain ⟨hlow, hbelow⟩ := hroom hmode
    have hx : s.m.mem (L.pcb p) = x.base := (h.proc p P hp).current x (by simp [hsaved])
    have hstack : entryStack L.currentPCB (latch s.m t) = s.m.get 29 := by
      unfold entryStack
      rw [latch_isr]
      exact if_pos hmode
    have hbase : (s.m.get 29 - 340).toNat = (s.m.get 29).toNat - 340 := by bv_omega
    rw [hstack, hsaved, hx]
    rw [hx] at hbelow
    refine ⟨?_, ?_, ?_, rfl, hsaved ▸ (h.proc p P hp).stacked⟩
    · unfold Saved.Nested
      rw [entered_special, latch_isr]
      exact hmode
    · rw [hbase]
      omega
    · rw [hbase]
      omega
  · have hnil : P.saved = [] := h.saved_nil hmode hcur hp
    have hstack : entryStack L.currentPCB (latch s.m t) = P.area.home + 340 := by
      unfold entryStack
      rw [latch_isr, latch_mem, hcur, (h.proc p P hp).idle hnil]
      exact if_neg hmode
    rw [hstack, hnil]
    refine ⟨by bv_omega, ?_⟩
    unfold Saved.Nested
    rw [entered_special, latch_isr]
    exact hmode

/-- The frame on top comes back into the registers. -/
theorem Inv.resumed {x : Saved} {l : List Saved} (h : Inv L s)
    (hcur : s.m.mem L.currentPCB = L.pcb p) (hp : s.procs p = some P) (hsaved : P.saved = x :: l) :
    Resumed x.regs (intrreturn L.currentPCB s.m) ∧ (intrreturn L.currentPCB s.m).mem =
      updates s.m.mem [(L.pcb p, x.prev), (L.pcb p + 4, x.base + 340)] := by
  have hproc := h.proc p P hp
  have hx : x ∈ P.saved := by simp [hsaved]
  exact intrreturn_spec hcur (hproc.current x (by simp [hsaved])) (hproc.holds x hx)
    fun o ho => (hproc.kernel_ne (hproc.stacked.owns hx ho)).2

variable [DecidableEq Pid]

/-- A step that changes the frames of one process, and memory in its stack and
its PCB only. -/
theorem Inv.change (h : Inv L s) (hp : s.procs p = some P)
    (hmem : ∀ a, ¬ P.area.Owns a → a ≠ L.pcb p → a ≠ L.pcb p + 4 → m'.mem a = s.m.mem a)
    (hproc : ProcInv L m' p Q) (harea : Q.area = P.area)
    (hmode : s.m.mem L.currentPCB = L.pcb p → (SystemMode m' ↔ Q.saved ≠ []))
    (hwait : s.m.mem L.currentPCB ≠ L.pcb p →
      Q.saved ≠ [] ∧ (SystemMode m' ↔ SystemMode s.m)) :
    Inv L ⟨m', update s.procs p (some Q)⟩ := by
  have hcur : m'.mem L.currentPCB = s.m.mem L.currentPCB :=
    hmem _ (fun ho => (h.proc p P hp).kernel _ ho (Or.inl rfl)) (L.currentPCB_ne p).1
      (L.currentPCB_ne p).2
  refine ⟨fun q R hq => ?_, fun q r R T hne hq hr a => ?_, fun q R hq hR => ?_, fun q R hq hR => ?_⟩
  · by_cases hqp : q = p
    · subst hqp
      obtain rfl : Q = R := by simpa using hq
      exact hproc
    · have hq : s.procs q = some R := by simpa [hqp] using hq
      refine (h.proc q R hq).congr fun a ha => ?_
      obtain ⟨h1, h2, h3, -⟩ := h.words_apart hqp hp hq ha
      exact hmem a h1 h2 h3
  · -- the stacks are where they were
    have hold (r : Pid) (T : Proc) (hr : update s.procs p (some Q) r = some T) :
        ∃ T', s.procs r = some T' ∧ T.area = T'.area := by
      by_cases hrp : r = p
      · subst hrp
        obtain rfl : Q = T := by simpa using hr
        exact ⟨P, hp, harea⟩
      · exact ⟨T, by simpa [hrp] using hr, rfl⟩
    obtain ⟨R', hq', hRa⟩ := hold q R hq
    obtain ⟨T', hr', hTa⟩ := hold r T hr
    rw [hRa, hTa]
    exact h.apart q r R' T' hne hq' hr' a
  · have hqcur : s.m.mem L.currentPCB = L.pcb q := hcur.symm.trans hq
    by_cases hqp : q = p
    · subst hqp
      obtain rfl : Q = R := by simpa using hR
      exact hmode hqcur
    · have hR : s.procs q = some R := by simpa [hqp] using hR
      have hne : s.m.mem L.currentPCB ≠ L.pcb p := fun he =>
        hqp (pcb_injective (hqcur.symm.trans he))
      exact (hwait hne).2.trans (h.mode q R hqcur hR)
  · have hqcur : s.m.mem L.currentPCB ≠ L.pcb q := fun he => hq (hcur.trans he)
    by_cases hqp : q = p
    · subst hqp
      obtain rfl : Q = R := by simpa using hR
      exact (hwait hqcur).1
    · exact h.waiting q R hqcur (by simpa [hqp] using hR)

/-! ## What each step does -/

theorem Inv.interrupt {t : Latch} (h : Inv L s) (hcur : s.m.mem L.currentPCB = L.pcb p)
    (hp : s.procs p = some P) (ht : t.status &&& SYSMODE ≠ 0)
    (hroom : SystemMode s.m → Room L p P.area s.m) :
    Inv L ⟨intrhandler L.currentPCB (latch s.m t),
      update s.procs p (some (push L (latch s.m t) P))⟩ := by
  have hstacked := push_base h hcur hp hroom (t := t)
  have hproc := h.proc p P hp
  generalize hx : (⟨entryStack L.currentPCB (latch s.m t) - 340, entered (latch s.m t),
    (latch s.m t).mem ((latch s.m t).mem L.currentPCB)⟩ : Saved) = x
  have hpush : (push L (latch s.m t) P).saved = x :: P.saved := by rw [← hx]; rfl
  rw [hpush] at hstacked
  have howns {o : Word} (ho : o ∈ pushedOffsets) : P.area.Owns (x.base + o) :=
    hstacked.owns List.mem_cons_self ho
  have hb : x.base = entryStack L.currentPCB (latch s.m t) - 340 := by rw [← hx]
  obtain ⟨hspecial, hmem⟩ := intrhandler_spec hb
    (fun o ho => (hproc.kernel_ne (howns ho)).1)
    (fun o ho => by rw [latch_mem, hcur]; exact (hproc.kernel_ne (howns ho)).2.1)
  have hpushed : pushedWords (entered (latch s.m t))
      ((latch s.m t).mem ((latch s.m t).mem L.currentPCB)) = pushedWords x.regs x.prev := by
    rw [← hx]
  rw [hpushed, latch_mem, hcur, updates_append] at hmem
  have hother (a : Word) (ha : a ≠ L.pcb p) (hframe : ∀ o ∈ pushedOffsets, a ≠ x.base + o) :
      (intrhandler L.currentPCB (latch s.m t)).mem a = s.m.mem a := by
    rw [hmem, updates_of_not_mem (by simpa using ha)]
    exact updates_offsets_of_ne fun w hw => hframe _ (pushed_offset hw)
  have hmode : SystemMode (intrhandler L.currentPCB (latch s.m t)) := by
    unfold SystemMode
    rw [hspecial, latch_status]
    exact ht
  refine h.change hp (fun a ha hne _ => hother a hne fun o ho he => ha (he ▸ howns ho))
    ⟨hproc.kernel, ?_, fun y hy w hw => ?_, fun y hy => ?_, fun hnil => ?_⟩ rfl
    (fun _ => iff_of_true hmode (by simp [hpush])) (fun hne => absurd hcur hne)
  · rw [hpush]
    exact hstacked
  · rw [hpush] at hy
    have hy' := (hstacked.owns hy (Saved.offset hw))
    have hne := (hproc.kernel_ne hy').2.1.symm
    rcases List.mem_cons.mp hy with rfl | hy
    · rw [hmem, updates_of_not_mem (by simpa using hne)]
      exact updates_offset pushedWords_nodup (pushed_of_frame hw)
    · rw [hother _ hne fun o ho => hstacked.word_ne hy (Saved.offset hw) ho]
      exact hproc.holds y hy w hw
  · obtain rfl : x = y := by simpa [hpush] using hy
    rw [hmem]
    exact updates_of_mem (by simp) (List.mem_singleton_self _)
  · rw [hpush] at hnil
    cases hnil

theorem Inv.setResult {v : Word} (h : Inv L s) (hmode : SystemMode s.m) (hq : s.procs q = some Q) :
    Inv L ⟨ProcessSetResult (L.pcb q) v s.m,
      update s.procs q (some { Q with saved := Q.saved.modifyHead (Saved.setResult v) })⟩ := by
  have hproc := h.proc q Q hq
  obtain ⟨x, l, hsaved⟩ := List.exists_cons_of_ne_nil (h.saved_ne_nil hmode hq)
  have hx : s.m.mem (L.pcb q) = x.base := hproc.current x (by simp [hsaved])
  have hstacked := hsaved ▸ hproc.stacked
  have h44 : (44 : Word) ∈ pushedOffsets := by simp [pushedOffsets, intRegs]
  have howns : Q.area.Owns (x.base + 44) := hstacked.owns List.mem_cons_self h44
  have hmem : (ProcessSetResult (L.pcb q) v s.m).mem = updates s.m.mem [(x.base + 44, v)] := by
    unfold ProcessSetResult
    rw [hx]
    rfl
  have hother (a : Word) (ha : a ≠ x.base + 44) :
      (ProcessSetResult (L.pcb q) v s.m).mem a = s.m.mem a := by
    rw [hmem, updates_of_not_mem (by simpa using ha)]
  have hkernel := hproc.kernel_ne howns
  have hhead : Q.saved.modifyHead (Saved.setResult v) = x.setResult v :: l := by
    rw [hsaved]
    rfl
  refine h.change hq (fun a ha _ _ => hother a fun he => ha (he ▸ howns))
    ⟨hproc.kernel, ?_, fun y hy w hw => ?_, fun y hy => ?_, fun hnil => ?_⟩ rfl
    (fun _ => iff_of_true hmode (by simp [hhead])) (fun _ => ⟨by simp [hhead], Iff.rfl⟩)
  · rw [hhead]
    cases l with
    | nil => exact hstacked
    | cons y l => exact hstacked
  · rw [hhead] at hy
    rcases List.mem_cons.mp hy with rfl | hy
    · rcases words_setResult hw with rfl | ⟨hne, hw⟩
      · rw [hmem]
        exact updates_of_mem (by simp) (List.mem_singleton_self _)
      · have haddr : (x.setResult v).base + w.1 ≠ x.base + 44 := fun he =>
          hne (by simpa [Saved.setResult] using he)
        rw [hother _ haddr]
        exact hproc.holds x (by simp [hsaved]) w hw
    · rw [hother _ (hstacked.word_ne hy (Saved.offset hw) h44)]
      exact hproc.holds y (by simp [hsaved, hy]) w hw
  · obtain rfl : x.setResult v = y := by simpa [hhead] using hy
    rw [hother _ hkernel.2.1]
    exact hx
  · rw [hhead] at hnil
    cases hnil

theorem Inv.setPtsize {v : Word} (h : Inv L s) (hmode : SystemMode s.m) (hq : s.procs q = some Q) :
    Inv L ⟨storePtsize Q.area.home v s.m, update s.procs q (some (Q.setPtsize v))⟩ := by
  have hproc := h.proc q Q hq
  have hsaved := h.saved_ne_nil hmode hq
  obtain ⟨howns, hnat⟩ := home_owned (A := Q.area)
  have hkernel := hproc.kernel_ne howns
  have hother (a : Word) (ha : a ≠ Q.area.home + 316) :
      (storePtsize Q.area.home v s.m).mem a = s.m.mem a :=
    updates_of_not_mem (by simpa using ha)
  have hne : (Q.setPtsize v).saved ≠ [] := by simpa [Proc.setPtsize] using hsaved
  refine h.change hq (fun a ha _ _ => hother a fun he => ha (he ▸ howns))
    ⟨hproc.kernel, ?_, fun y hy w hw => ?_, fun y hy => ?_, fun hnil => absurd hnil hne⟩ rfl
    (fun _ => iff_of_true hmode hne) (fun _ => ⟨hne, Iff.rfl⟩)
  · refine hproc.stacked.map (fun x => ?_) (fun x => ?_) (fun x => ?_) <;> split
    all_goals rfl
  · obtain ⟨x, hx, rfl⟩ := List.mem_map.mp hy
    have hin (hw : w ∈ x.words) (hword : x.base + w.1 ≠ Q.area.home + 316) :
        (storePtsize Q.area.home v s.m).mem (x.base + w.1) = w.2 := by
      rw [hother _ hword]
      exact hproc.holds x hx w hw
    by_cases hbase : x.base = Q.area.home
    · rw [if_pos hbase] at hw ⊢
      change (storePtsize Q.area.home v s.m).mem (x.base + w.1) = w.2
      rcases words_setPtsize hw with rfl | ⟨hoff, hw⟩
      · rw [hbase]
        exact updates_of_mem (by simp) (List.mem_singleton_self _)
      · exact hin hw fun he => hoff (by rw [hbase] at he; simpa using he)
    · -- a frame that is not the outermost one ends below it
      rw [if_neg hbase] at hw ⊢
      have hbelow := (hproc.stacked.below_home hx).resolve_left hbase
      have hrange := offset_range (hproc.stacked.fits hx) (Saved.offset hw)
      refine hin hw fun he => ?_
      rw [he, hnat] at hrange
      omega
  · rw [hother _ hkernel.2.1]
    obtain ⟨x, l, hl⟩ := List.exists_cons_of_ne_nil hsaved
    obtain rfl : (if x.base = Q.area.home then x.setPtsize v else x) = y := by
      simpa [Proc.setPtsize, hl] using hy
    rw [hproc.current x (by simp [hl])]
    split <;> rfl

theorem Inv.intrreturn (h : Inv L s) (hmode : SystemMode s.m)
    (hcur : s.m.mem L.currentPCB = L.pcb p) (hp : s.procs p = some P) :
    Inv L ⟨intrreturn L.currentPCB s.m,
      update s.procs p (some { P with saved := P.saved.tail })⟩ := by
  have hproc := h.proc p P hp
  obtain ⟨x, l, hsaved⟩ := List.exists_cons_of_ne_nil (h.saved_ne_nil hmode hp)
  obtain ⟨hregs, hmem⟩ := h.resumed hcur hp hsaved
  have hstacked := hsaved ▸ hproc.stacked
  have hne : L.pcb p ≠ L.pcb p + 4 := by bv_omega
  have hother (a : Word) (ha : a ≠ L.pcb p) (ha' : a ≠ L.pcb p + 4) :
      (context.intrreturn L.currentPCB s.m).mem a = s.m.mem a := by
    rw [hmem, updates_of_not_mem fun y hy => ?_]
    rcases List.mem_pair.mp hy with rfl | rfl
    · exact ha
    · exact ha'
  have htail : P.saved.tail = l := by rw [hsaved, List.tail_cons]
  have hmode' : SystemMode (context.intrreturn L.currentPCB s.m) ↔ l ≠ [] := by
    unfold SystemMode
    rw [hregs.status]
    cases l with
    | nil => exact iff_of_false hstacked.2 (by simp)
    | cons y l => exact iff_of_true hstacked.1 (by simp)
  rw [htail]
  refine h.change hp (fun a _ ha ha' => hother a ha ha')
    ⟨hproc.kernel, hstacked.tail, fun y hy w hw => ?_, fun y hy => ?_, fun hnil => ?_⟩ rfl
    (fun _ => hmode') (fun hne => absurd hcur hne)
  · have hy : y ∈ P.saved := by
      rw [hsaved]
      exact List.mem_cons_of_mem _ hy
    have hkernel := hproc.kernel_ne (hproc.stacked.owns hy (Saved.offset hw))
    rw [hother _ hkernel.2.1.symm hkernel.2.2.symm]
    exact hproc.holds y hy w hw
  · obtain ⟨l', hl⟩ : ∃ l', l = y :: l' := List.head?_eq_some_iff.mp hy
    have hprev : x.prev = y.base := by
      rw [hl] at hstacked
      exact hstacked.2.2.2.1
    rw [hmem, ← hprev]
    exact updates_of_mem (by simp) (by simp)
  · have hhome : x.base = P.area.home := by
      have hl : l = [] := hnil
      rw [hl] at hstacked
      exact hstacked.1
    rw [hmem, hhome]
    exact updates_of_mem (by simp) (by simp)

omit [DecidableEq Pid] in
theorem Inv.switch (h : Inv L s) (hmode : SystemMode s.m) :
    Inv L { s with m := s.m.store [(L.currentPCB, L.pcb q)] } where
  proc := fun p P hp => by
    refine (h.proc p P hp).congr fun a ha => ?_
    exact updates_of_not_mem (by simpa using (h.proc p P hp).words_ne ha)
  apart := h.apart
  mode := fun p P _ hp => iff_of_true hmode (h.saved_ne_nil hmode hp)
  waiting := fun p P _ hp => h.saved_ne_nil hmode hp

theorem Inv.fork {A : Area} {x : Saved} (h : Inv L s) (hmode : SystemMode s.m)
    (hmode' : SystemMode m') (hq : s.procs q = none) (hk : Keeps L s m')
    (hfork : Forked L s q A x m') : Inv L ⟨m', update s.procs q (some ⟨A, [x]⟩)⟩ := by
  have hcases {p : Pid} {P : Proc} (hp : update s.procs q (some ⟨A, [x]⟩) p = some P) :
      p = q ∧ P = ⟨A, [x]⟩ ∨ p ≠ q ∧ s.procs p = some P := by
    by_cases hpq : p = q
    · subst hpq
      exact Or.inl ⟨rfl, by simpa using hp.symm⟩
    · exact Or.inr ⟨hpq, by simpa [hpq] using hp⟩
  have hsaved {p : Pid} {P : Proc} (hp : update s.procs q (some ⟨A, [x]⟩) p = some P) :
      P.saved ≠ [] := by
    rcases hcases hp with ⟨-, rfl⟩ | ⟨-, hp⟩
    · simp
    · exact h.saved_ne_nil hmode hp
  refine ⟨fun p P hp => ?_, fun p r P R hne hp hr a ha => ?_,
    fun p P _ hp => iff_of_true hmode' (hsaved hp), fun p P _ hp => hsaved hp⟩
  · rcases hcases hp with ⟨rfl, rfl⟩ | ⟨-, hp⟩
    · refine ⟨hfork.kernel, ⟨hfork.base, hfork.user⟩, ?_, ?_, fun hnil => absurd hnil (by simp)⟩
      · intro y hy
        rw [List.mem_singleton.mp hy]
        exact hfork.holds
      · intro y hy
        obtain rfl : x = y := by simpa using hy
        exact hfork.frame.trans hfork.base.symm
    · exact (h.proc p P hp).congr (hk.2 p P hp)
  · rcases hcases hp with ⟨rfl, rfl⟩ | ⟨-, hp'⟩ <;> rcases hcases hr with ⟨rfl, rfl⟩ | ⟨-, hr'⟩
    · exact absurd rfl hne
    · exact hfork.apart r R hr' a ha
    · exact fun ho => hfork.apart p P hp' a ho ha
    · exact h.apart p r P R hne hp' hr' a ha

theorem Inv.exit (h : Inv L s) : Inv L { s with procs := update s.procs q none } := by
  have hold {p : Pid} {P : Proc} (hp : update s.procs q none p = some P) : s.procs p = some P := by
    by_cases hpq : p = q
    · subst hpq
      simp at hp
    · simpa [hpq] using hp
  exact ⟨fun p P hp => h.proc p P (hold hp),
    fun p r P R hne hp hr => h.apart p r P R hne (hold hp) (hold hr),
    fun p P hcur hp => h.mode p P hcur (hold hp),
    fun p P hcur hp => h.waiting p P hcur (hold hp)⟩

theorem Inv.step {x : Event Pid} (h : Inv L s) (hstep : Step L s x s') : Inv L s' := by
  cases hstep with
  | user hmode hspecial hk =>
    refine h.keeps hk ?_
    unfold SystemMode
    rw [hspecial]
  | kernel hmode hmode' hk => exact h.keeps hk (iff_of_true hmode' hmode)
  | interrupt hcur hp ht hroom => exact h.interrupt hcur hp ht hroom
  | switch hmode hq => exact h.switch hmode
  | setResult hmode hq => exact h.setResult hmode hq
  | setPtsize hmode hq => exact h.setPtsize hmode hq
  | intrreturn hmode hcur hp => exact h.intrreturn hmode hcur hp
  | fork hmode hmode' hq hk hfork => exact h.fork hmode hmode' hq hk hfork
  | exit hmode hq => exact h.exit

theorem Inv.run {tr : List (Event Pid)} (h : Inv L s) (hrun : Run L s tr s') : Inv L s' := by
  induction hrun with
  | nil => exact h
  | snoc _ hstep ih => exact ih.step hstep

theorem Run.append {tr tr' : List (Event Pid)} {s'' : State Pid} (h : Run L s tr s')
    (h' : Run L s' tr' s'') : Run L s (tr ++ tr') s'' := by
  induction h' with
  | nil => rwa [List.append_nil]
  | snoc _ hstep ih =>
    rw [← List.append_assoc]
    exact ih.snoc hstep

omit [DecidableEq Pid] in
theorem Booted.inv (h : Booted s) : Inv L s := by
  have hnone {p : Pid} {P : Proc} (hp : s.procs p = some P) : False := by simp [h.2 p] at hp
  exact ⟨fun p P hp => (hnone hp).elim, fun p q P Q _ hp => (hnone hp).elim,
    fun p P _ hp => (hnone hp).elim, fun p P _ hp => (hnone hp).elim⟩

/-! ## One frame, from its push to its pop -/

/-- The frame with what was stored in it last. -/
def Saved.withStored (x : Saved) (r : Stored) : Saved where
  base := x.base
  regs := {
    r := match r.result with
      | none => x.regs.r
      | some v => update x.regs.r 1 v
    f := x.regs.f
    special := match r.ptsize with
      | none => x.regs.special
      | some v => update x.regs.special .ptsize v }
  prev := x.prev

section Stored

variable {x : Saved} {r : Stored} {v : Word}

theorem setResult_withStored : (x.withStored r).setResult v =
    x.withStored { r with result := some v } := by
  obtain ⟨_ | w, z⟩ := r <;> simp [Saved.withStored, Saved.setResult]

theorem setPtsize_withStored : (x.withStored r).setPtsize v =
    x.withStored { r with ptsize := some v } := by
  obtain ⟨z, _ | w⟩ := r <;> simp [Saved.withStored, Saved.setPtsize]

theorem withStored_r {i : Reg} (hi : i ≠ 1) : (x.withStored r).regs.r i = x.regs.r i := by
  obtain ⟨_ | w, z⟩ := r
  · rfl
  · exact update_of_ne hi ..

theorem withStored_r1 : (x.withStored r).regs.r 1 = r.result.getD (x.regs.r 1) := by
  obtain ⟨_ | w, z⟩ := r
  · rfl
  · exact update_self (1 : Reg) w x.regs.r

theorem withStored_special {y : Special} (hy : y ≠ .ptsize) :
    (x.withStored r).regs.special y = x.regs.special y := by
  obtain ⟨z, _ | w⟩ := r
  · rfl
  · exact update_of_ne hy ..

theorem withStored_ptsize :
    (x.withStored r).regs.special .ptsize = r.ptsize.getD (x.regs.special .ptsize) := by
  obtain ⟨z, _ | w⟩ := r
  · rfl
  · exact update_self Special.ptsize w x.regs.special

end Stored

/-- The frame `x` of `p` is below as many others as counted, with what was stored
in it. -/
structure Holding (p : Pid) (x : Saved) (outermost : Bool) (s : State Pid) (t : Nat × Stored)
    (P : Proc) (inner l : List Saved) : Prop where
  proc : s.procs p = some P
  count : inner.length = t.1
  saved : P.saved = inner ++ x.withStored t.2 :: l
  home : x.base = P.area.home ↔ outermost = true

theorem Holding.step {x : Saved} {o : Bool} {e : Event Pid} {t t' : Nat × Stored}
    {inner l : List Saved} (h : Holding p x o s t P inner l) (hstep : Step L s e s')
    (ht : follow1 p o t e = some t') : ∃ P' inner' l', Holding p x o s' t' P' inner' l' := by
  obtain ⟨hp, hlen, hsaved, hhome⟩ := h
  obtain ⟨d, r⟩ := t
  have hkeep {q : Pid} {Q : Option Proc} {m : Machine} (hq : q ≠ p) :
      ∃ P' inner' l', Holding p x o ⟨m, update s.procs q Q⟩ (d, r) P' inner' l' :=
    ⟨P, inner, l, by simpa [hq.symm] using hp, hlen, hsaved, hhome⟩
  cases hstep with
  | user | kernel | switch =>
    obtain rfl : (d, r) = t' := by simpa [follow1] using ht
    exact ⟨P, inner, l, hp, hlen, hsaved, hhome⟩
  | @interrupt q Q u _ hq =>
    obtain rfl : (if q = p then d + 1 else d, r) = t' := by simpa [follow1] using ht
    by_cases hqp : q = p
    · subst hqp
      obtain rfl : Q = P := by simpa [hp] using hq.symm
      rw [if_pos rfl]
      obtain ⟨y, hy⟩ : ∃ y, (push L (latch s.m u) Q).saved = y :: Q.saved := ⟨_, rfl⟩
      refine ⟨_, y :: inner, l, update_self .., by simpa using hlen, ?_, hhome⟩
      rw [hy, hsaved]
      rfl
    · rw [if_neg hqp]
      exact hkeep hqp
  | @setResult q v Q _ hq =>
    obtain rfl : (d, if q = p ∧ d = 0 then { r with result := some v } else r) = t' := by
      simpa [follow1] using ht
    by_cases hqp : q = p
    · subst hqp
      obtain rfl : Q = P := by simpa [hp] using hq.symm
      cases inner with
      | nil =>
        have hd : d = 0 := by simpa using hlen.symm
        refine ⟨_, [], l, update_self .., hlen, ?_, hhome⟩
        rw [if_pos ⟨rfl, hd⟩, hsaved]
        exact congrArg (· :: l) setResult_withStored
      | cons y inner =>
        have hd : d ≠ 0 := by simp at hlen; omega
        refine ⟨_, y.setResult v :: inner, l, update_self .., hlen, ?_, hhome⟩
        rw [if_neg (by simp [hd]), hsaved]
        rfl
    · rw [if_neg (by simp [hqp])]
      exact hkeep hqp
  | @setPtsize q v Q _ hq =>
    obtain rfl : (d, if q = p ∧ o = true then { r with ptsize := some v } else r) = t' := by
      simpa [follow1] using ht
    by_cases hqp : q = p
    · subst hqp
      obtain rfl : Q = P := by simpa [hp] using hq.symm
      refine ⟨_, inner.map fun x => if x.base = Q.area.home then x.setPtsize v else x,
        l.map fun x => if x.base = Q.area.home then x.setPtsize v else x, update_self ..,
        by simpa using hlen, ?_, hhome⟩
      simp only [Proc.setPtsize, hsaved, List.map_append, List.map_cons]
      congr 2
      have hbase : (x.withStored r).base = Q.area.home ↔ o = true := hhome
      by_cases ho : o = true
      · rw [if_pos (hbase.mpr ho), if_pos ⟨trivial, ho⟩]
        exact setPtsize_withStored
      · rw [if_neg (mt hbase.mp ho), if_neg fun hand => ho hand.2]
    · rw [if_neg (by simp [hqp])]
      exact hkeep hqp
  | @intrreturn q Q _ _ hq =>
    by_cases hqp : q = p
    · subst hqp
      obtain rfl : Q = P := by simpa [hp] using hq.symm
      cases inner with
      | nil =>
        have hd : d = 0 := by simpa using hlen.symm
        simp [follow1, hd] at ht
      | cons y inner =>
        have hd : d ≠ 0 := by simp at hlen; omega
        obtain rfl : (d - 1, r) = t' := by simpa [follow1, hd] using ht
        refine ⟨_, inner, l, update_self .., by simp at hlen ⊢; omega, ?_, hhome⟩
        simp [hsaved]
    · obtain rfl : (d, r) = t' := by simpa [follow1, hqp] using ht
      exact hkeep hqp
  | @fork q =>
    by_cases hqp : q = p
    · simp [follow1, hqp] at ht
    · obtain rfl : (d, r) = t' := by simpa [follow1, hqp] using ht
      exact hkeep hqp
  | @exit q =>
    by_cases hqp : q = p
    · simp [follow1, hqp] at ht
    · obtain rfl : (d, r) = t' := by simpa [follow1, hqp] using ht
      exact hkeep hqp

theorem Holding.run {x : Saved} {o : Bool} {tr : List (Event Pid)} {t : Nat × Stored}
    {inner l : List Saved} (h : Holding p x o s (0, ⟨none, none⟩) P inner l)
    (hrun : Run L s tr s') (ht : follow p o tr = some t) :
    ∃ P' inner' l', Holding p x o s' t P' inner' l' := by
  induction hrun generalizing t with
  | nil =>
    obtain rfl : (0, ⟨none, none⟩) = t := by simpa [follow] using ht
    exact ⟨P, inner, l, h⟩
  | snoc _ hstep ih =>
    unfold follow at ht
    rw [List.foldlM_append] at ht
    obtain ⟨u, hu, ht⟩ := Option.bind_eq_some_iff.mp ht
    obtain ⟨P', inner', l', h'⟩ := ih hu
    exact h'.step hstep (by simpa using ht)

/-- The frame is on top again, with what was stored in it. -/
theorem Holding.top {x : Saved} {o : Bool} {tr : List (Event Pid)} {r : Stored} {l : List Saved}
    (h : Holding p x o s (0, ⟨none, none⟩) P [] l) (hrun : Run L s tr s')
    (ht : follow p o tr = some (0, r)) :
    ∃ P' l', s'.procs p = some P' ∧ P'.saved = x.withStored r :: l' := by
  obtain ⟨P', inner, l', hp, hlen, hsaved, -⟩ := h.run hrun ht
  obtain rfl : inner = [] := by simpa using hlen
  exact ⟨P', l', hp, hsaved⟩

/-- Where no number of pages is stored, there is only the result. -/
theorem follow_of_track {o : Bool} {tr : List (Event Pid)} {t : Nat × Option Word}
    (h : track p tr = some t) : follow p o tr = some (t.1, ⟨t.2, none⟩) := by
  have hstep (u u' : Nat × Option Word) (e : Event Pid) (hu : track1 p u e = some u') :
      follow1 p o (u.1, ⟨u.2, none⟩) e = some (u'.1, ⟨u'.2, none⟩) := by
    cases e with
    | setPtsize q v =>
      by_cases hqp : q = p <;> simp_all [track1, follow1]
    | _ =>
      simp only [track1] at hu
      simp only [follow1]
      grind
  have hall (u : Nat × Option Word) (hu : tr.foldlM (track1 p) u = some t) :
      tr.foldlM (follow1 p o) (u.1, ⟨u.2, none⟩) = some (t.1, ⟨t.2, none⟩) := by
    clear h
    induction tr generalizing u with
    | nil =>
      obtain rfl : u = t := by simpa using hu
      rfl
    | cons e tr ih =>
      rw [List.foldlM_cons] at hu ⊢
      obtain ⟨u', hu', ht⟩ := Option.bind_eq_some_iff.mp hu
      rw [hstep u u' e hu']
      exact ih u' ht
  exact hall (0, none) h

/-- The frame that an interrupt pushes. -/
def interruptFrame (L : Layout Pid) (m : Machine) (t : Latch) : Saved :=
  ⟨entryStack L.currentPCB (latch m t) - 340, entered (latch m t),
    (latch m t).mem ((latch m t).mem L.currentPCB)⟩

omit [DecidableEq Pid] in
theorem interruptFrame_r {t : Latch} {i : Reg} (hi : i ≠ 0) :
    (interruptFrame L m t).regs.r i = m.get i := by
  rw [Machine.get_of_ne hi]
  by_cases h31 : i = 31
  · subst h31
    exact entered_r31.trans latch_ir31
  · exact entered_r h31

omit [DecidableEq Pid] in
theorem interruptFrame_prev {t : Latch} (hcur : m.mem L.currentPCB = L.pcb p) :
    (interruptFrame L m t).prev = m.mem (L.pcb p) := by
  unfold interruptFrame
  rw [latch_mem, hcur]

/-- The frame of an interrupt is on top again, with what was stored in it. -/
theorem Holding.interrupt {s0 s1 s2 : State Pid} {tr : List (Event Pid)} {t : Latch} {r : Stored}
    {o : Bool} (hs1 : s1.procs p = some (push L (latch s0.m t) P))
    (hhome : (interruptFrame L s0.m t).base = P.area.home ↔ o = true) (hrun : Run L s1 tr s2)
    (hfollow : follow p o tr = some (0, r)) : ∃ P2 l, s2.procs p = some P2 ∧
      P2.saved = (interruptFrame L s0.m t).withStored r :: l := by
  have hstart : Holding p (interruptFrame L s0.m t) o s1 (0, ⟨none, none⟩)
      (push L (latch s0.m t) P) [] P.saved := ⟨hs1, rfl, rfl, hhome⟩
  exact hstart.top hrun hfollow

/-- A frame that holds what was stored in it comes back into the registers. -/
theorem Inv.came_back {s2 s3 : State Pid} {x : Saved} {r : Stored} {l : List Saved} (h2 : Inv L s2)
    (hp : s2.procs p = some P) (hsaved : P.saved = x.withStored r :: l)
    (hout : Step L s2 (.intrreturn p) s3) :
    (∀ i, i ≠ 0 → i ≠ 1 → s3.m.get i = x.regs.r i) ∧
      s3.m.get 1 = r.result.getD (x.regs.r 1) ∧ s3.m.cpu.f = x.regs.f ∧
      (∀ y ∈ [Special.iar, .isr, .cause, .fault, .ptbase, .ptbits],
        s3.m.cpu.special y = x.regs.special y) ∧
      s3.m.cpu.special .ptsize = r.ptsize.getD (x.regs.special .ptsize) ∧
      s3.m.cpu.special .status = x.regs.special .isr ∧
      s3.m.mem (L.pcb p) = x.prev ∧ s3.m.mem (L.pcb p + 4) = x.base + 340 := by
  cases hout with
  | intrreturn hmode hcur hp' =>
  obtain ⟨hregs, hmem⟩ := h2.resumed hcur hp hsaved
  refine ⟨fun i hi hi1 => ?_, ?_, hregs.floats, fun y hy => ?_, ?_, ?_, ?_, ?_⟩
  · rw [hregs.ints i hi, withStored_r hi1]
  · rw [hregs.ints 1 (by decide), withStored_r1]
  · have hin : y ∈ specialRegs.map (·.2.1) ∧ y ≠ .ptsize := by
      simp only [List.mem_cons, List.not_mem_nil, or_false] at hy
      rcases hy with rfl | rfl | rfl | rfl | rfl | rfl <;> decide
    rw [hregs.specials y hin.1, withStored_special hin.2]
  · rw [hregs.specials .ptsize (by decide), withStored_ptsize]
  · rw [hregs.status, withStored_special (by decide)]
  · rw [hmem]
    exact updates_of_mem (by simp) List.mem_cons_self
  · rw [hmem]
    exact updates_of_mem (by simp) (List.mem_cons_of_mem _ (List.mem_singleton_self _))

omit [DecidableEq Pid] in
/-- The frame of an interrupt in user mode is the outermost one. -/
theorem Inv.interrupt_home {s0 : State Pid} {t : Latch} (h : Inv L s0)
    (hcur : s0.m.mem L.currentPCB = L.pcb p) (hp : s0.procs p = some P)
    (hroom : SystemMode s0.m → Room L p P.area s0.m) (huser : ¬ SystemMode s0.m) :
    (interruptFrame L s0.m t).base = P.area.home := by
  have hstacked := push_base h hcur hp hroom (t := t)
  unfold push at hstacked
  rw [h.saved_nil huser hcur hp] at hstacked
  exact hstacked.1

/-- When the frame of an interrupt is popped, whatever has run and trapped in
between, the process has the registers of the interrupt, and in `r1` the result
stored for it; `currentSavedFrame` is what it was, and after the outermost frame
`sysStackPtr` too. -/
theorem registers_come_back {sb s0 s1 s2 s3 : State Pid} {tr0 tr : List (Event Pid)} {t : Latch}
    {r : Option Word} (hboot : Booted sb) (hreach : Run L sb tr0 s0)
    (hin : Step L s0 (.interrupt p t) s1) (hrun : Run L s1 tr s2)
    (htrack : track p tr = some (0, r)) (hout : Step L s2 (.intrreturn p) s3) :
    (∀ i, i ≠ 0 → i ≠ 1 → s3.m.get i = s0.m.get i) ∧
      s3.m.get 1 = r.getD (s0.m.get 1) ∧ s3.m.cpu.f = s0.m.cpu.f ∧
      (∀ x ∈ [Special.iar, .isr, .cause, .fault, .ptbase, .ptsize, .ptbits],
        s3.m.cpu.special x = (latch s0.m t).cpu.special x) ∧
      s3.m.mem (L.pcb p) = s0.m.mem (L.pcb p) ∧
      (¬ SystemMode s0.m → s3.m.mem (L.pcb p + 4) = s0.m.mem (L.pcb p + 4)) := by
  have h0 : Inv L s0 := hboot.inv.run hreach
  have h2 : Inv L s2 := (h0.step hin).run hrun
  cases hin with
  | @interrupt _ P _ hcur hp ht hroom =>
  obtain ⟨P2, l, hp2, hsaved⟩ := Holding.interrupt (o := decide _) (update_self ..)
    decide_eq_true_iff.symm hrun (follow_of_track htrack)
  obtain ⟨hints, h1, hf, hspecials, hsize, -, hpcb, hstack⟩ := h2.came_back hp2 hsaved hout
  refine ⟨fun i hi hi1 => ?_, ?_, hf, fun y hy => ?_, ?_, fun huser => ?_⟩
  · rw [hints i hi hi1, interruptFrame_r hi]
  · rw [h1, interruptFrame_r (by decide)]
  · by_cases hy' : y = .ptsize
    · rw [hy']
      exact hsize
    · exact hspecials y (by simpa [hy'] using hy)
  · rw [hpcb, interruptFrame_prev hcur]
  · rw [hstack, (h0.proc p P hp).idle (h0.saved_nil huser hcur hp),
      h0.interrupt_home hcur hp hroom huser]

/-- The same for a trap in user mode, with the number of pages that was stored
for the process. -/
theorem trap_comes_back {sb s0 s1 s2 s3 : State Pid} {tr0 tr : List (Event Pid)} {t : Latch}
    {r : Stored} (hboot : Booted sb) (hreach : Run L sb tr0 s0)
    (hin : Step L s0 (.interrupt p t) s1) (huser : ¬ SystemMode s0.m) (hrun : Run L s1 tr s2)
    (hfollow : follow p true tr = some (0, r)) (hout : Step L s2 (.intrreturn p) s3) :
    (∀ i, i ≠ 0 → i ≠ 1 → s3.m.get i = s0.m.get i) ∧
      s3.m.get 1 = r.result.getD (s0.m.get 1) ∧ s3.m.cpu.f = s0.m.cpu.f ∧
      s3.m.cpu.special .iar = t.iar ∧
      (∀ y ∈ [Special.status, .ptbase, .ptbits], s3.m.cpu.special y = s0.m.cpu.special y) ∧
      s3.m.cpu.special .ptsize = r.ptsize.getD (s0.m.cpu.special .ptsize) ∧
      s3.m.mem (L.pcb p) = s0.m.mem (L.pcb p) ∧
      s3.m.mem (L.pcb p + 4) = s0.m.mem (L.pcb p + 4) := by
  have h0 : Inv L s0 := hboot.inv.run hreach
  have h2 : Inv L s2 := (h0.step hin).run hrun
  cases hin with
  | @interrupt _ P _ hcur hp ht hroom =>
  have hhome := h0.interrupt_home (t := t) hcur hp hroom huser
  obtain ⟨P2, l, hp2, hsaved⟩ := Holding.interrupt (o := true) (update_self ..)
    (iff_of_true hhome rfl) hrun hfollow
  obtain ⟨hints, h1, hf, hspecials, hsize, hstatus, hpcb, hstack⟩ :=
    h2.came_back hp2 hsaved hout
  have hlatched (y : Special) (hy : y = .ptbase ∨ y = .ptbits ∨ y = .ptsize) :
      (interruptFrame L s0.m t).regs.special y = s0.m.cpu.special y := by
    rcases hy with rfl | rfl | rfl <;> simp [interruptFrame, latch, updates]
  refine ⟨fun i hi hi1 => ?_, ?_, hf, ?_, fun y hy => ?_, ?_, ?_, ?_⟩
  · rw [hints i hi hi1, interruptFrame_r hi]
  · rw [h1, interruptFrame_r (by decide)]
  · rw [hspecials .iar (by simp)]
    simp [interruptFrame, latch, updates]
  · simp only [List.mem_cons, List.not_mem_nil, or_false] at hy
    rcases hy with rfl | rfl | rfl
    · rw [hstatus]
      simp [interruptFrame]
    · rw [hspecials .ptbase (by simp), hlatched _ (.inl rfl)]
    · rw [hspecials .ptbits (by simp), hlatched _ (.inr (.inl rfl))]
  · rw [hsize, hlatched _ (.inr (.inr rfl))]
  · rw [hpcb, interruptFrame_prev hcur]
  · rw [hstack, (h0.proc p P hp).idle (h0.saved_nil huser hcur hp), hhome]

end Invariant

/-! ## A run of two processes -/

namespace twoProcesses

def layout : Layout Bool where
  currentPCB := 0x2000
  pcb p := if p then 0x1100 else 0x1000
  pcb_ne := by decide
  currentPCB_ne := by decide

def area (p : Bool) : Area where
  low := if p then 0x20000 else 0x10000
  home := if p then 0x20800 else 0x10800
  low_le := by cases p <;> decide
  fits := by cases p <;> decide

/-- The frames are in memory already, each with the status of a user process. -/
def frame (p : Bool) : Saved where
  base := (area p).home
  regs := ⟨fun _ => 0, fun _ => 0, update (fun _ => 0) .isr 0x100⟩
  prev := 0

def boot : State Bool where
  m := ⟨⟨fun _ => 0, fun _ => 0, update (fun _ => 0) .status SYSMODE⟩,
    updates (fun _ => 0) [(0x1000, 0x10800), (0x1004, 0x10800), (0x10800 + 300, 0x100),
      (0x1100, 0x20800), (0x1104, 0x20800), (0x20800 + 300, 0x100)]⟩
  procs _ := none

theorem frame_holds (p : Bool) : (frame p).Holds boot.m.mem := by
  unfold Saved.Holds
  cases p
  · exact List.forall_iff_forall_mem.mp (by decide +kernel)
  · exact List.forall_iff_forall_mem.mp (by decide +kernel)

theorem area_apart (a : Word) (h : (area true).Owns a) : ¬ (area false).Owns a := by
  obtain ⟨hlow, -⟩ := h
  rintro ⟨-, hhigh⟩
  simp [area] at hlow hhigh
  omega

theorem area_kernel (p : Bool) (a : Word) (h : (area p).Owns a) : ¬ layout.Kernel a := by
  obtain ⟨hlow, -⟩ := h
  rintro (rfl | ⟨q, rfl | rfl⟩)
  · cases p <;> simp [area, layout] at hlow
  · cases p <;> cases q <;> simp [area, layout] at hlow
  · cases p <;> cases q <;> simp [area, layout] at hlow

def forked : State Bool :=
  ⟨boot.m, update (update boot.procs false (some ⟨area false, [frame false]⟩)) true
    (some ⟨area true, [frame true]⟩)⟩

theorem boot_mode : SystemMode boot.m := by decide

theorem boot_booted : Booted boot := ⟨boot_mode, fun _ => rfl⟩

theorem run_forked : Run layout boot [.fork false, .fork true] forked := by
  have hkeep (s : State Bool) : Keeps layout s s.m := ⟨rfl, fun _ _ _ _ _ => rfl⟩
  refine (Run.nil.snoc (Step.fork (x := frame false) boot_mode boot_mode rfl
    (hkeep _) ⟨rfl, by decide, frame_holds false, by decide, by decide, area_kernel false,
      ?_⟩)).snoc (Step.fork (x := frame true) boot_mode boot_mode rfl (hkeep _) ⟨rfl, by decide,
        frame_holds true, by decide, by decide, area_kernel true, ?_⟩)
  · intro p P hp
    cases hp
  · intro p P hp
    cases p
    · obtain rfl : P = _ := (Option.some.inj hp).symm
      exact area_apart
    · cases hp

def trap (p : Bool) (t : Latch) (P : Proc) (s : State Bool) : State Bool :=
  ⟨intrhandler layout.currentPCB (latch s.m t),
    update s.procs p (some (push layout (latch s.m t) P))⟩

def resume (p : Bool) (P : Proc) (s : State Bool) : State Bool :=
  ⟨intrreturn layout.currentPCB s.m, update s.procs p (some { P with saved := P.saved.tail })⟩

def choose (q : Bool) (s : State Bool) : State Bool :=
  { s with m := s.m.store [(layout.currentPCB, layout.pcb q)] }

/-- The time of the trap of a process that goes to sleep. -/
def sleeps : Latch := ⟨0x44, 0x410, 0, SYSMODE⟩

def user0 : State Bool := resume false ⟨area false, [frame false]⟩ (choose false forked)
def trap0 : State Bool := trap false sleeps ⟨area false, []⟩ user0
def P0 : Proc := push layout (latch user0.m sleeps) ⟨area false, []⟩
def user1 : State Bool := resume true ⟨area true, [frame true]⟩ (choose true trap0)
def trap1 : State Bool := trap true sleeps ⟨area true, []⟩ user1
def nested1 : State Bool :=
  trap true sleeps (push layout (latch user1.m sleeps) ⟨area true, []⟩) trap1
def result0 : State Bool :=
  ⟨ProcessSetResult (layout.pcb false) 5 (choose false nested1).m,
    update nested1.procs false (some { P0 with saved := P0.saved.modifyHead (Saved.setResult 5) })⟩

def sleeping : List (Event Bool) :=
  [.switch true, .intrreturn true, .interrupt true sleeps, .interrupt true sleeps, .switch false,
    .setResult false 5]

/-- The modes along the run. -/
theorem modes : SystemMode (choose false forked).m ∧ ¬ SystemMode user0.m ∧
    SystemMode trap0.m ∧ SystemMode (choose true trap0).m ∧ ¬ SystemMode user1.m ∧
    SystemMode trap1.m ∧ SystemMode nested1.m ∧ SystemMode (choose false nested1).m ∧
    SystemMode result0.m := by
  decide +kernel

/-- Whose turn it is along the run, and the room for the frame of the second trap. -/
theorem turns : (choose false forked).m.mem layout.currentPCB = layout.pcb false ∧
    user0.m.mem layout.currentPCB = layout.pcb false ∧
    (choose true trap0).m.mem layout.currentPCB = layout.pcb true ∧
    user1.m.mem layout.currentPCB = layout.pcb true ∧
    trap1.m.mem layout.currentPCB = layout.pcb true ∧
    result0.m.mem layout.currentPCB = layout.pcb false ∧
    (area true).low.toNat + 340 ≤ (trap1.m.get 29).toNat ∧
    (trap1.m.get 29).toNat ≤ (trap1.m.mem (layout.pcb true)).toNat := by
  decide +kernel

theorem user0_run : Run layout boot [.fork false, .fork true, .switch false, .intrreturn false]
    user0 :=
  (run_forked.snoc (Step.switch boot_mode rfl)).snoc (Step.intrreturn modes.1 turns.1 rfl)

theorem trap0_step : Step layout user0 (.interrupt false sleeps) trap0 :=
  Step.interrupt turns.2.1 rfl (by decide) fun h => absurd h modes.2.1

/-- The other process starts, and traps. -/
theorem trap1_run : Run layout trap0 [.switch true, .intrreturn true, .interrupt true sleeps]
    trap1 := by
  obtain ⟨-, -, h0, hchosen, huser, -⟩ := modes
  obtain ⟨-, -, hcurrent, huser1, -⟩ := turns
  exact ((Run.nil.snoc (Step.switch h0 rfl)).snoc (Step.intrreturn hchosen hcurrent rfl)).snoc
    (Step.interrupt huser1 rfl (by decide) fun h => absurd h huser)

theorem nested1_step : Step layout trap1 (.interrupt true sleeps) nested1 := by
  obtain ⟨-, -, -, -, hcurrent, -, hroom⟩ := turns
  exact Step.interrupt hcurrent rfl (by decide) fun _ => hroom

theorem sleeping_run : Run layout trap0 sleeping result0 := by
  obtain ⟨-, -, -, -, -, -, hnested, hchosen, -⟩ := modes
  exact ((trap1_run.snoc nested1_step).snoc (Step.switch hnested rfl)).snoc
    (Step.setResult (Q := P0) hchosen rfl)

theorem result0_step : ∃ s, Step layout result0 (.intrreturn false) s := by
  obtain ⟨-, -, -, -, -, -, -, -, hmode⟩ := modes
  obtain ⟨-, -, -, -, -, hcurrent, -⟩ := turns
  exact ⟨_, Step.intrreturn (P := { P0 with saved := P0.saved.modifyHead (Saved.setResult 5) })
    hmode hcurrent rfl⟩

/-- The process that waits for its result comes back with it, and with the
registers it had when it trapped. -/
theorem sleeper_comes_back : ∃ s : State Bool, s.m.get 1 = 5 ∧
    (∀ i, i ≠ 0 → i ≠ 1 → s.m.get i = user0.m.get i) ∧
    s.m.mem (layout.pcb false + 4) = user0.m.mem (layout.pcb false + 4) := by
  have htrack : track false sleeping = some (0, some 5) := by decide
  obtain ⟨s, hout⟩ := result0_step
  obtain ⟨hints, h1, -, -, -, hstack⟩ :=
    registers_come_back boot_booted user0_run trap0_step sleeping_run htrack hout
  exact ⟨s, h1, hints, hstack modes.2.1⟩

end twoProcesses
end dlxos.context
