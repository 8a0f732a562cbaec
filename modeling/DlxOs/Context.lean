-- `_intrhandler` and `_intrreturn` of `dlxos.s`: the registers of a process go
-- to a frame on its system stack, and come back from it. The instructions are
-- those of the source, in their order; a branch of the source is an `if`.
import DlxOs.Asm

namespace dlxos.context

open Function dlx

/-! ## The layout of a frame -/

def PROCESS_STACK_IREG : Nat := 10
def PROCESS_STACK_PREV_FRAME : Nat := 10
def PROCESS_STACK_FRAME_SIZE : Nat := 85

/-- The bit of the status register that stands for system mode. -/
def SYSMODE : Word := 0x40

/-- `sw 44(r29),r1` and the lines below it. -/
def intRegs : List (Word × Reg) :=
  [(44, 1), (48, 2), (52, 3), (56, 4), (60, 5), (64, 6), (68, 7), (72, 8), (76, 9), (80, 10),
    (84, 11), (88, 12), (92, 13), (96, 14), (100, 15), (104, 16), (108, 17), (112, 18),
    (116, 19), (120, 20), (124, 21), (128, 22), (132, 23), (136, 24), (140, 25), (144, 26),
    (148, 27), (152, 28), (160, 30)]

/-- `sd 168(r29),f0` and the lines below it. -/
def floatRegs : List (Word × Reg) :=
  [(168, 0), (176, 2), (184, 4), (192, 6), (200, 8), (208, 10), (216, 12), (224, 14), (232, 16),
    (240, 18), (248, 20), (256, 22), (264, 24), (272, 26), (280, 28), (288, 30)]

/-- `movs2i r4,iar`, `sw 296(r29),r4` and the lines below them. -/
def specialRegs : List (Reg × Special × Word) :=
  [(4, .iar, 296), (5, .isr, 300), (6, .cause, 304), (3, .fault, 308), (3, .ptbase, 312),
    (3, .ptsize, 316), (3, .ptbits, 320)]

/-! ## The routines -/

/-- `lhi` and `addui` of an address, and `lw` of the word there. -/
def loadCurrentPCB (currentPCB : Word) (rd : Reg) : List Instr :=
  [.lhi rd ((currentPCB >>> 16) &&& 0xffff), .addui rd rd (currentPCB &&& 0xffff), .lw rd 0 rd]

/-- A user process: its system stack is where the PCB says. -/
def intrUser (currentPCB : Word) : List Instr :=
  loadCurrentPCB currentPCB 31 ++ [.lw 31 4 31, .sw (-184) 31 29, .ori 29 31 0]

/-- A system process, or a trap out of a handler: the stack in use. -/
def intrSystem : List Instr := [.sw (-184) 29 29]

def pushRegs : List Instr :=
  [.subui 29 29 340] ++ sws 29 intRegs ++ sspecials 29 [(3, .ir31, 164)] ++ sds 29 floatRegs ++
    sspecials 29 specialRegs

/-- The interrupt information, and the link to the frame before. -/
def pushInfo (currentPCB : Word) : List Instr :=
  [.sw 0 29 6, .sw 4 29 4, .sw 8 29 5, .lw 1 156 29, .sw 12 29 1] ++
    loadCurrentPCB currentPCB 1 ++ [.lw 2 0 1, .sw 40 29 2, .sw 0 1 29]

def intrSaveReg (currentPCB : Word) : List Instr := pushRegs ++ pushInfo currentPCB

/-- The first lines choose the stack, by the mode that `isr` shows. -/
def intrStack (currentPCB : Word) (m : Machine) : Machine :=
  let m := m.run [.movs2i 31 .isr, .andi 31 31 0x40]
  if m.get 31 ≠ 0 then m.run intrSystem else m.run (intrUser currentPCB)

def intrhandler (currentPCB : Word) (m : Machine) : Machine :=
  (intrStack currentPCB m).run (intrSaveReg currentPCB)

def popFrame (currentPCB : Word) : List Instr :=
  loadCurrentPCB currentPCB 1 ++ [.lw 29 0 1, .lw 2 40 29, .sw 0 1 2]

/-- The loads, from the offsets of the stores; `r1` and `r29` come last. -/
def specialLoads : List (Special × Word) := specialRegs.map (·.2)
def floatLoads : List (Reg × Word) := floatRegs.map fun x => (x.2, x.1)
def intLoads : List (Reg × Word) := intRegs.tail.map (fun x => (x.2, x.1)) ++ [(31, 164)]

def popRegs : List Instr := lspecials 29 3 specialLoads ++ lds 29 floatLoads ++ lws 29 intLoads

def popStack : List Instr :=
  [.addui 29 29 340, .sw 4 1 29, .ori 1 29 0, .lw 29 (-184) 1, .lw 1 (-296) 1]

/-- `rfe` takes the status from `isr`. -/
def rfe (m : Machine) : Machine := m.setSpecial [(.status, m.cpu.special .isr)]

/-- From the return of `DisableIntrs` on. -/
def intrreturn (currentPCB : Word) (m : Machine) : Machine :=
  rfe (m.run (popFrame currentPCB ++ popRegs ++ popStack))

/-- `pcb->currentSavedFrame[PROCESS_STACK_IREG+1] = result;` -/
def ProcessSetResult (pcb : Word) (result : Word) (m : Machine) : Machine :=
  m.store [(m.mem pcb + BitVec.ofNat 32 (4 * (PROCESS_STACK_IREG + 1)), result)]

/-- `lw r1,8(r6)`, `addui r1,r1,#65164` and `sw 316(r1),r2` in `share_memory.o`:
the number of pages goes to the frame at the end of the system stack. -/
def storePtsize (stackframe npages : Word) (m : Machine) : Machine :=
  m.store [(stackframe + 316, npages)]

/-! ## What a frame holds -/

/-- The registers `c`, at their offsets. -/
def regWords (c : Cpu) : List (Word × Word) :=
  (156, c.r 29) :: intRegs.map (fun x => (x.1, c.r x.2)) ++ [(164, c.r 31)] ++
    floatRegs.flatMap (fun x => [(x.1, c.f x.2), (x.1 + 4, c.f (x.2 + 1))]) ++
    specialRegs.map fun x => (x.2.2, c.special x.2.1)

/-- The four arguments of the C handler. -/
def argWords (c : Cpu) : List (Word × Word) :=
  [(0, c.special .cause), (4, c.special .iar), (8, c.special .isr), (12, c.r 29)]

/-- What has to stay in a frame until it is popped: the registers, and the
address of the frame before it. -/
def frameWords (c : Cpu) (prev : Word) : List (Word × Word) := regWords c ++ [(40, prev)]

/-- All that is pushed, in the order of the stores. -/
def pushedWords (c : Cpu) (prev : Word) : List (Word × Word) :=
  regWords c ++ argWords c ++ [(40, prev)]

section Offsets

variable {c : Cpu} {prev : Word} {w : Word × Word}

def pushedOffsets : List Word :=
  156 :: intRegs.map (·.1) ++ [164] ++ floatRegs.flatMap (fun x => [x.1, x.1 + 4]) ++
    specialRegs.map (·.2.2) ++ [0, 4, 8, 12] ++ [40]

theorem pushedWords_offsets : (pushedWords c prev).map (·.1) = pushedOffsets := by
  simp only [pushedWords, regWords, argWords, pushedOffsets, List.map_append, List.map_cons,
    List.map_map, List.map_flatMap, List.map_nil, comp_def]

theorem pushedWords_nodup : ((pushedWords c prev).map (·.1)).Nodup := by
  rw [pushedWords_offsets, List.nodup_iff_pairwise_ne]
  decide +kernel

theorem pushedOffsets_lt : ∀ o ∈ pushedOffsets, o.toNat < PROCESS_STACK_FRAME_SIZE * 4 := by
  have hall : pushedOffsets.all (fun o => o.ult 340) = true := by decide +kernel
  intro o ho
  exact BitVec.ult_iff_toNat_lt.mp (List.all_eq_true.mp hall o ho)

theorem pushed_offset (h : w ∈ pushedWords c prev) : w.1 ∈ pushedOffsets := by
  rw [← @pushedWords_offsets c prev]
  exact List.mem_map_of_mem h

theorem pushed_of_frame (h : w ∈ frameWords c prev) : w ∈ pushedWords c prev := by
  unfold frameWords at h
  unfold pushedWords
  grind

end Offsets

/-! ## The entry -/

/-- The registers at an entry: the hardware keeps the old `r31` in `ir31`. -/
def entered (e : Machine) : Cpu :=
  { e.cpu with r := update e.cpu.r 31 (e.cpu.special .ir31) }

/-- The stack pointer that the entry starts from. -/
def entryStack (currentPCB : Word) (e : Machine) : Word :=
  if e.cpu.special .isr &&& SYSMODE ≠ 0 then e.get 29 else e.mem (e.mem currentPCB + 4)

section Entry

variable {a b : Word} {e m : Machine} {rd : Reg}

theorem run_loadCurrentPCB (h : rd ≠ 0) : m.run (loadCurrentPCB a rd) =
    m.setR [(rd, (a >>> 16 &&& 0xffff) <<< 16), (rd, a), (rd, m.mem a)] := by
  have haddr : (m.setR [(rd, (a >>> 16 &&& 0xffff) <<< 16)]).get rd + (a &&& 0xffff) = a := by
    rw [Machine.get_setR_self h, lhi_addui]
  simp only [loadCurrentPCB, Machine.run_cons, Machine.exec, haddr, Machine.run_nil]
  rw [Machine.get_setR_self h]
  have hzero : a + 0 = a := by simp
  rw [hzero, Machine.setR_setR, Machine.setR_setR, Machine.setR_mem, Machine.setR_mem]
  rfl

theorem get_loadCurrentPCB (h : rd ≠ 0) : (m.run (loadCurrentPCB a rd)).get rd = m.mem a := by
  rw [run_loadCurrentPCB h, Machine.get_setR_of_ne h]
  simp [updates]

/-- The mode is in `r31`. -/
theorem run_mode : e.run [.movs2i 31 .isr, .andi 31 31 0x40] =
    e.setR [(31, e.cpu.special .isr), (31, e.cpu.special .isr &&& SYSMODE)] := by
  simp only [Machine.run_cons, Machine.run_nil, Machine.exec, Machine.setR_setR]
  rw [Machine.get_setR_self (by decide)]
  rfl

theorem intrStack_system (h : e.cpu.special .isr &&& SYSMODE ≠ 0) : intrStack a e =
    (e.setR [(31, e.cpu.special .isr), (31, e.cpu.special .isr &&& SYSMODE)]).store
      [(e.get 29 + -184, e.get 29)] := by
  unfold intrStack
  rw [run_mode, if_pos]
  · rfl
  · rw [Machine.get_setR_of_ne (by decide)]
    simpa [updates] using h

theorem intrStack_user (h : ¬ e.cpu.special .isr &&& SYSMODE ≠ 0) : ∃ l : List (Reg × Word),
    (∀ x ∈ l, x.1 = 31) ∧ intrStack a e = ((e.setR l).store
      [(e.mem (e.mem a + 4) + -184, e.get 29)]).setR [(29, e.mem (e.mem a + 4))] := by
  refine ⟨[(31, e.cpu.special .isr), (31, e.cpu.special .isr &&& SYSMODE),
    (31, (a >>> 16 &&& 0xffff) <<< 16), (31, a), (31, e.mem a), (31, e.mem (e.mem a + 4))],
    by simp, ?_⟩
  have hzero : ¬ (e.run [.movs2i 31 .isr, .andi 31 31 0x40]).get 31 ≠ 0 := by
    rw [run_mode, Machine.get_setR_of_ne (by decide)]
    simpa [updates] using h
  unfold intrStack
  rw [if_neg hzero, intrUser, Machine.run_append, run_mode]
  simp only [Machine.run_cons, Machine.run_nil, Machine.exec]
  rw [get_loadCurrentPCB (by decide), run_loadCurrentPCB (by decide)]
  simp only [Machine.setR_setR, Machine.setR_mem, List.cons_append, List.nil_append]
  simp [Machine.get_of_ne, updates]

/-- The stack has been chosen, and the old stack pointer is in its frame. -/
theorem intrStack_spec : (intrStack a e).get 29 = entryStack a e ∧
    (intrStack a e).mem = updates e.mem [(entryStack a e - 340 + 156, e.get 29)] ∧
    (intrStack a e).cpu.f = e.cpu.f ∧ (intrStack a e).cpu.special = e.cpu.special ∧
    ∀ i, i ≠ 29 → i ≠ 31 → (intrStack a e).get i = e.get i := by
  have haddr : entryStack a e + -184 = entryStack a e - 340 + 156 := by bv_omega
  rw [← haddr]
  by_cases h : e.cpu.special .isr &&& SYSMODE ≠ 0
  · have hstack : entryStack a e = e.get 29 := if_pos h
    rw [hstack, intrStack_system h]
    refine ⟨?_, rfl, rfl, rfl, fun i _ hi => ?_⟩
    · rw [Machine.get_store, Machine.get_setR_of_not_mem (by simp)]
    · rw [Machine.get_store, Machine.get_setR_of_not_mem (by simp [hi])]
  · have hstack : entryStack a e = e.mem (e.mem a + 4) := if_neg h
    obtain ⟨l, hl, heq⟩ := intrStack_user (a := a) h
    rw [hstack, heq]
    refine ⟨Machine.get_setR_self (by decide), rfl, rfl, rfl, fun i hi hi' => ?_⟩
    rw [Machine.get_setR_of_not_mem (by simp [hi]), Machine.get_store]
    exact Machine.get_setR_of_not_mem fun x hx => hl x hx ▸ hi'

section Pushes

variable {R : List (Reg × Word)} {W : List (Word × Word)}

theorem push_ints (hR : (m.setR R).get 29 = b) {l : List (Word × Reg)}
    (hl : ∀ x ∈ l, (m.setR R).get x.2 = m.get x.2) :
    ((m.setR R).store (offsets b W)).run (sws 29 l) =
      (m.setR R).store (offsets b (W ++ l.map fun x => (x.1, m.get x.2))) := by
  have hmap : l.map (fun x => (x.1, (m.setR R).get x.2)) = l.map fun x => (x.1, m.get x.2) :=
    List.map_congr_left fun x hx => by rw [hl x hx]
  rw [run_sws]
  simp only [Machine.get_store, hR, hmap, Machine.store_store, offsets_append]

theorem push_floats (hR : (m.setR R).get 29 = b) {l : List (Word × Reg)} :
    ((m.setR R).store (offsets b W)).run (sds 29 l) = (m.setR R).store (offsets b
      (W ++ l.flatMap fun x => [(x.1, m.cpu.f x.2), (x.1 + 4, m.cpu.f (x.2 + 1))])) := by
  rw [run_sds]
  simp only [Machine.get_store, hR, Machine.store_cpu, Machine.setR_f, Machine.store_store,
    offsets_append]

theorem push_specials (hR : (m.setR R).get 29 = b) {l : List (Reg × Special × Word)}
    (hbase : ∀ x ∈ l, 29 ≠ x.1) (hzero : ∀ x ∈ l, x.1 ≠ 0) :
    ((m.setR R).store (offsets b W)).run (sspecials 29 l) =
      (m.setR (R ++ l.map fun x => (x.1, m.cpu.special x.2.1))).store
        (offsets b (W ++ l.map fun x => (x.2.2, m.cpu.special x.2.1))) := by
  rw [run_sspecials l hbase hzero]
  simp only [Machine.get_store, hR, Machine.store_cpu, Machine.setR_special, Machine.store_setR,
    Machine.setR_setR, Machine.store_store, offsets_append]

end Pushes

/-- The words that `pushRegs` stores. -/
def regsPushed (m : Machine) : List (Word × Word) :=
  intRegs.map (fun x => (x.1, m.get x.2)) ++ [(164, m.cpu.special .ir31)] ++
    floatRegs.flatMap (fun x => [(x.1, m.cpu.f x.2), (x.1 + 4, m.cpu.f (x.2 + 1))]) ++
    specialRegs.map fun x => (x.2.2, m.cpu.special x.2.1)

theorem intRegs_apart : ∀ x ∈ intRegs, x.2 ≠ 29 ∧ x.2 ≠ 31 ∧ x.2 ≠ 0 :=
  List.forall_iff_forall_mem.mp (by decide)

/-- The registers are on the stack, all but `r29`. -/
theorem run_pushRegs (hb : m.get 29 = b + 340) : m.run pushRegs =
    (m.setR ([(29, b), (3, m.cpu.special .ir31)] ++
      specialRegs.map fun x => (x.1, m.cpu.special x.2.1))).store (offsets b (regsPushed m)) := by
  have hsub : m.run [.subui 29 29 340] = (m.setR [(29, b)]).store (offsets b []) := by
    have hdiff : b + 340 - 340 = b := by bv_omega
    simp only [Machine.run_cons, Machine.run_nil, Machine.exec, hb, hdiff]
    rfl
  have h29 : (m.setR [(29, b)]).get 29 = b := Machine.get_setR_self (by decide)
  have h29' : (m.setR ([(29, b)] ++ [(3, m.cpu.special .ir31)])).get 29 = b := by
    rw [← Machine.setR_setR, Machine.get_setR_of_not_mem (by simp), h29]
  have hints (x : Word × Reg) (hx : x ∈ intRegs) : (m.setR [(29, b)]).get x.2 = m.get x.2 := by
    have hne : x.2 ≠ 29 := (intRegs_apart x hx).1
    exact Machine.get_setR_of_not_mem (by simp [hne])
  unfold pushRegs
  rw [Machine.run_append, Machine.run_append, Machine.run_append, Machine.run_append, hsub,
    push_ints h29 hints, push_specials h29 (by simp) (by simp)]
  simp only [List.map_cons, List.map_nil]
  rw [push_floats h29', push_specials h29' (by simp [specialRegs]) (by simp [specialRegs])]
  rfl

/-- The interrupt information is pushed, and the PCB points to the frame. -/
theorem run_pushInfo {R : List (Reg × Word)} {W : List (Word × Word)} {x4 x5 x6 v p prev : Word}
    (h29 : (m.setR R).get 29 = b) (h4 : (m.setR R).get 4 = x4) (h5 : (m.setR R).get 5 = x5)
    (h6 : (m.setR R).get 6 = x6)
    (hv : updates m.mem (offsets b (W ++ [(0, x6), (4, x4), (8, x5)])) (b + 156) = v)
    (hp : updates m.mem (offsets b (W ++ [(0, x6), (4, x4), (8, x5), (12, v)])) a = p)
    (hprev : updates m.mem (offsets b (W ++ [(0, x6), (4, x4), (8, x5), (12, v)])) p = prev) :
    ∃ R', ((m.setR R).store (offsets b W)).run (pushInfo a) = (m.setR R').store
      (offsets b (W ++ [(0, x6), (4, x4), (8, x5), (12, v), (40, prev)]) ++ [(p, b)]) := by
  have hargs : ((m.setR R).store (offsets b W)).run
      [.sw 0 29 6, .sw 4 29 4, .sw 8 29 5, .lw 1 156 29, .sw 12 29 1] =
      (m.setR (R ++ [(1, v)])).store
        (offsets b (W ++ [(0, x6), (4, x4), (8, x5), (12, v)])) := by
    have hW : ∀ l : List (Word × Word), offsets b W ++ offsets b l = offsets b (W ++ l) :=
      fun l => offsets_append.symm
    have h1 : ((m.setR (R ++ [(1, v)]))).get 29 = b := by
      rw [← Machine.setR_setR, Machine.get_setR_of_not_mem (by simp), h29]
    have h2 : ((m.setR (R ++ [(1, v)]))).get 1 = v := by
      rw [← Machine.setR_setR, Machine.get_setR_self (by decide)]
    simp only [Machine.run_cons, Machine.run_nil, Machine.exec, Machine.get_store, h29, h4, h5, h6,
      Machine.store_store, List.append_assoc, List.cons_append, List.nil_append]
    have hthree : [(b + 0, x6), (b + 4, x4), (b + 8, x5)] =
      offsets b [(0, x6), (4, x4), (8, x5)] := rfl
    rw [hthree, hW, Machine.store_mem, Machine.setR_mem, hv, Machine.store_setR,
      Machine.setR_setR, Machine.get_store, Machine.get_store, h1, h2, Machine.store_store]
    simp [offsets]
  generalize hW' : W ++ [(0, x6), (4, x4), (8, x5), (12, v)] = W' at hargs hp hprev
  have hload : ((m.setR (R ++ [(1, v)])).store (offsets b W')).run (loadCurrentPCB a 1) =
      (m.setR (R ++ [((1 : Reg), v), (1, (a >>> 16 &&& 0xffff) <<< 16), (1, a), (1, p)])).store
        (offsets b W') := by
    rw [run_loadCurrentPCB (by decide), Machine.store_mem, Machine.setR_mem, hp,
      Machine.store_setR, Machine.setR_setR, List.append_assoc]
    rfl
  generalize hR' :
    R ++ [((1 : Reg), v), (1, (a >>> 16 &&& 0xffff) <<< 16), (1, a), (1, p)] = R' at hload
  have h1 : (m.setR R').get 1 = p := by
    rw [← hR', ← Machine.setR_setR, Machine.get_setR_of_ne (by decide)]
    simp [updates]
  have h29' : (m.setR R').get 29 = b := by
    rw [← hR', ← Machine.setR_setR, Machine.get_setR_of_not_mem (by simp), h29]
  have hlink : ((m.setR R').store (offsets b W')).run [.lw 2 0 1, .sw 40 29 2, .sw 0 1 29] =
      (m.setR (R' ++ [(2, prev)])).store (offsets b (W' ++ [(40, prev)]) ++ [(p, b)]) := by
    have hp0 : p + 0 = p := by simp
    have h2 (i : Reg) (hi : i ≠ 2) : (m.setR (R' ++ [(2, prev)])).get i = (m.setR R').get i := by
      rw [← Machine.setR_setR, Machine.get_setR_of_not_mem (by simp [hi])]
    have h2' : (m.setR (R' ++ [(2, prev)])).get 2 = prev := by
      rw [← Machine.setR_setR, Machine.get_setR_self (by decide)]
    simp only [Machine.run_cons, Machine.run_nil, Machine.exec, Machine.get_store, h1, hp0,
      Machine.store_mem, Machine.setR_mem, hprev, Machine.store_setR, Machine.setR_setR, h2',
      h2 29 (by decide), h2 1 (by decide), h29', Machine.store_store]
    simp [offsets]
  refine ⟨R' ++ [(2, prev)], ?_⟩
  unfold pushInfo
  rw [Machine.run_append, Machine.run_append, hargs, hload, hlink, ← hW']
  simp

@[simp] theorem entered_r31 : (entered e).r 31 = e.cpu.special .ir31 := by
  simp only [entered, update_self]

@[simp] theorem entered_f : (entered e).f = e.cpu.f := rfl
@[simp] theorem entered_special : (entered e).special = e.cpu.special := rfl

theorem entered_r {i : Reg} (h : i ≠ 31) : (entered e).r i = e.cpu.r i := update_of_ne h ..

theorem regWords_entered :
    (156, e.get 29) :: regsPushed (intrStack a e) = regWords (entered e) := by
  obtain ⟨-, -, hf, hspecial, hget⟩ := intrStack_spec (a := a) (e := e)
  have hints : intRegs.map (fun x => (x.1, (intrStack a e).get x.2)) =
      intRegs.map fun x => (x.1, (entered e).r x.2) := by
    apply List.map_congr_left
    intro x hx
    have hne := intRegs_apart x hx
    rw [hget x.2 hne.1 hne.2.1, Machine.get_of_ne hne.2.2, entered_r hne.2.1]
  unfold regsPushed regWords
  rw [hints, hf, hspecial, Machine.get_of_ne (by decide), entered_r31, entered_f, entered_special,
    entered_r (by decide)]
  rfl

/-- All that the entry leaves in memory: a frame with the registers, its link to
the frame before it, and the address of the frame in the PCB. -/
theorem intrhandler_spec (hb : b = entryStack a e - 340) (ha : ∀ o ∈ pushedOffsets, a ≠ b + o)
    (hpcb : ∀ o ∈ pushedOffsets, e.mem a ≠ b + o) :
    (intrhandler a e).cpu.special = e.cpu.special ∧ (intrhandler a e).mem =
      updates e.mem (offsets b (pushedWords (entered e) (e.mem (e.mem a))) ++ [(e.mem a, b)]) := by
  obtain ⟨h29, hmem, -, hspecial, -⟩ := intrStack_spec (a := a) (e := e)
  have hb340 : (intrStack a e).get 29 = b + 340 := by
    rw [h29, hb]
    bv_omega
  rw [← hb] at hmem
  have hfirst (l : List (Word × Word)) :
      updates (intrStack a e).mem (offsets b (regsPushed (intrStack a e) ++ l)) =
        updates e.mem (offsets b (regWords (entered e) ++ l)) := by
    rw [hmem, ← updates_append, ← regWords_entered (a := a)]
    rfl
  have hargs : regWords (entered e) ++ argWords (entered e) ++ [(40, e.mem (e.mem a))] =
      pushedWords (entered e) (e.mem (e.mem a)) := rfl
  have hapart (x : Word) (hx : ∀ o ∈ pushedOffsets, x ≠ b + o) :
      updates (intrStack a e).mem (offsets b (regsPushed (intrStack a e) ++
        argWords (entered e))) x = e.mem x := by
    rw [hfirst]
    apply updates_offsets_of_ne
    intro w hw
    have hw : w ∈ pushedWords (entered e) (e.mem (e.mem a)) := List.mem_append_left _ hw
    exact hx w.1 (pushed_offset hw)
  have hv : updates (intrStack a e).mem (offsets b (regsPushed (intrStack a e) ++
      (argWords (entered e)).take 3)) (b + 156) = (entered e).r 29 := by
    rw [hfirst]
    have hsub : (regWords (entered e) ++ (argWords (entered e)).take 3).Sublist
        (pushedWords (entered e) (e.mem (e.mem a))) := by
      rw [← hargs, List.append_assoc]
      exact (List.Sublist.refl _).append
        ((List.take_sublist ..).trans (List.sublist_append_left ..))
    exact updates_offset (pushedWords_nodup.sublist (hsub.map _))
      (List.mem_append_left _ (by simp [regWords]))
  set R : List (Reg × Word) := [(29, b), (3, (intrStack a e).cpu.special .ir31)] ++
    specialRegs.map fun x => (x.1, (intrStack a e).cpu.special x.2.1) with hR
  have hreg (i : Reg) (v : Word) (hi : i ≠ 0) (hv : updates (intrStack a e).cpu.r R i = v) :
      ((intrStack a e).setR R).get i = v := by
    rw [Machine.get_setR_of_ne hi, hv]
  obtain ⟨R', hrun⟩ := run_pushInfo (m := intrStack a e) (R := R)
    (hreg 29 b (by decide) (by simp [R, updates, specialRegs]))
    (hreg 4 _ (by decide) (by simp [R, updates, specialRegs, hspecial]))
    (hreg 5 _ (by decide) (by simp [R, updates, specialRegs, hspecial]))
    (hreg 6 _ (by decide) (by simp [R, updates, specialRegs, hspecial])) hv
    (hapart a ha) (hapart _ hpcb)
  unfold intrhandler intrSaveReg
  rw [Machine.run_append, run_pushRegs hb340, hrun]
  refine ⟨hspecial, ?_⟩
  rw [Machine.store_mem, Machine.setR_mem, updates_append, hfirst, updates_append]
  rfl

end Entry

/-! ## The return -/

section Return

variable {a b p prev : Word} {c : Cpu} {m : Machine}

theorem run_popFrame (hp : m.mem a = p) (hb : m.mem p = b) (hprev : m.mem (b + 40) = prev) :
    ∃ R, m.run (popFrame a) = (m.setR R).store [(p, prev)] ∧ (m.setR R).get 1 = p ∧
      (m.setR R).get 29 = b := by
  have hload : m.run (loadCurrentPCB a 1) =
      m.setR [(1, (a >>> 16 &&& 0xffff) <<< 16), (1, a), (1, p)] := by
    rw [run_loadCurrentPCB (by decide), hp]
  generalize hR : [((1 : Reg), (a >>> 16 &&& 0xffff) <<< 16), (1, a), (1, p)] = R at hload
  have hr1 : (m.setR R).get 1 = p := by
    have hget := get_loadCurrentPCB (m := m) (a := a) (show (1 : Reg) ≠ 0 by decide)
    rwa [hload, hp] at hget
  have h1 (l : List (Reg × Word)) (hl : ∀ x ∈ l, 1 ≠ x.1) : (m.setR (R ++ l)).get 1 = p := by
    rw [← Machine.setR_setR, Machine.get_setR_of_not_mem hl, hr1]
  have h29 : (m.setR (R ++ [(29, b)])).get 29 = b := by
    rw [← Machine.setR_setR, Machine.get_setR_self (by decide)]
  have h29' : (m.setR (R ++ [(29, b), (2, prev)])).get 29 = b := by
    rw [Machine.get_setR_of_ne (by decide), updates_append]
    simp [updates]
  have h2 : (m.setR (R ++ [(29, b), (2, prev)])).get 2 = prev := by
    rw [Machine.get_setR_of_ne (by decide), updates_append]
    simp [updates]
  have hzero : p + 0 = p := by simp
  refine ⟨R ++ [(29, b), (2, prev)], ?_, h1 _ (by simp), h29'⟩
  unfold popFrame
  rw [Machine.run_append, hload]
  simp only [Machine.run_cons, Machine.run_nil, Machine.exec, hr1, hzero, Machine.setR_mem, hb,
    Machine.setR_setR, h29, hprev, List.append_assoc, List.cons_append, List.nil_append, h2]
  rw [h1 _ (by simp), hzero]

theorem float_mem {x : Word × Reg} (h : x ∈ floatRegs) :
    (x.1, c.f x.2) ∈ regWords c ∧ (x.1 + 4, c.f (x.2 + 1)) ∈ regWords c := by
  unfold regWords
  constructor
  · exact List.mem_append_left _ (List.mem_append_right _ (List.mem_flatMap.mpr ⟨x, h, by simp⟩))
  · exact List.mem_append_left _ (List.mem_append_right _ (List.mem_flatMap.mpr ⟨x, h, by simp⟩))

theorem special_mem {x : Reg × Special × Word} (h : x ∈ specialRegs) :
    (x.2.2, c.special x.2.1) ∈ regWords c :=
  List.mem_append_right _ (List.mem_map.mpr ⟨x, h, rfl⟩)

theorem int_mem {x : Reg × Word} (h : x ∈ intLoads) : (x.2, c.r x.1) ∈ regWords c := by
  rcases List.mem_append.mp h with h | h
  · obtain ⟨y, hy, rfl⟩ := List.mem_map.mp h
    have hy : (y.1, c.r y.2) ∈ intRegs.map fun x => (x.1, c.r x.2) :=
      List.mem_map.mpr ⟨y, List.mem_of_mem_tail hy, rfl⟩
    unfold regWords
    simp only [List.cons_append, List.mem_cons, List.mem_append]
    tauto
  · obtain rfl := List.mem_singleton.mp h
    simp [regWords]

theorem floats_loaded (i : Reg) : i ∈ floatLoads.flatMap fun x => [x.1, x.1 + 1] := by
  revert i
  decide

theorem ints_loaded (i : Reg) (h0 : i ≠ 0) (h1 : i ≠ 1) (h29 : i ≠ 29) :
    i ∈ intLoads.map (·.1) := by
  revert i
  decide

theorem not_loaded {i : Reg} (hi : i = 1 ∨ i = 29) : ∀ x ∈ intLoads, i ≠ x.1 := by
  rcases hi with rfl | rfl
  · exact List.forall_iff_forall_mem.mp (by decide)
  · exact List.forall_iff_forall_mem.mp (by decide)

/-- The words of the frame are back in the registers, all but `r1` and `r29`. -/
theorem run_popRegs (hb : m.get 29 = b)
    (hframe : ∀ w ∈ frameWords c prev, m.mem (b + w.1) = w.2) :
    (m.run popRegs).mem = m.mem ∧ (m.run popRegs).cpu.f = c.f ∧
      (∀ s ∈ specialRegs.map (·.2.1), (m.run popRegs).cpu.special s = c.special s) ∧
      (m.run popRegs).get 1 = m.get 1 ∧ (m.run popRegs).get 29 = b ∧
      ∀ i, i ≠ 0 → i ≠ 1 → i ≠ 29 → (m.run popRegs).get i = c.r i := by
  have hread {x : Word × Word} (hx : x ∈ regWords c) : m.mem (b + x.1) = x.2 :=
    hframe x (List.mem_append_left _ hx)
  have hS : (m.setR (specialLoads.map fun x => (3, m.mem (b + x.2)))).get 29 = b := by
    rw [Machine.get_setR_of_not_mem (fun x hx => ?_), hb]
    obtain ⟨y, -, rfl⟩ := List.mem_map.mp hx
    simp
  have hload : m.run popRegs =
      (((m.setR (specialLoads.map fun x => (3, m.mem (b + x.2)))).setSpecial
        (specialLoads.map fun x => (x.1, m.mem (b + x.2)))).setF
        (floatLoads.flatMap fun x => [(x.1, m.mem (b + x.2)),
          (x.1 + 1, m.mem (b + (x.2 + 4)))])).setR
        (intLoads.map fun x => (x.1, m.mem (b + x.2))) := by
    unfold popRegs
    rw [Machine.run_append, Machine.run_append, run_lspecials _ (by decide) (by decide), run_lds,
      run_lws _ (not_loaded (Or.inr rfl)), hb]
    simp only [Machine.get_setSpecial, Machine.get_setF, hS, Machine.setSpecial_mem,
      Machine.setF_mem, Machine.setR_mem]
  rw [hload]
  have hsame {i : Reg} (hi : i = 1 ∨ i = 29) :
      ((m.setR (specialLoads.map fun x => (3, m.mem (b + x.2)))).setR
        (intLoads.map fun x => (x.1, m.mem (b + x.2)))).get i = m.get i := by
    rw [Machine.get_setR_of_not_mem, Machine.get_setR_of_not_mem]
    · intro x hx
      obtain ⟨y, -, rfl⟩ := List.mem_map.mp hx
      rcases hi with rfl | rfl <;> simp
    · intro x hx
      obtain ⟨y, hy, rfl⟩ := List.mem_map.mp hx
      exact not_loaded hi y hy
  refine ⟨rfl, ?_, ?_, hsame (Or.inl rfl), (hsame (Or.inr rfl)).trans hb, ?_⟩
  · funext i
    refine updates_agree (fun x hx => ?_) ?_
    · obtain ⟨y, hy, hx⟩ := List.mem_flatMap.mp hx
      obtain ⟨z, hz, rfl⟩ := List.mem_map.mp hy
      rcases List.mem_pair.mp hx with rfl | rfl
      · exact hread (float_mem hz).1
      · exact hread (float_mem hz).2
    · simpa [List.map_flatMap] using floats_loaded i
  · intro s hs
    refine updates_agree (fun x hx => ?_) ?_
    · obtain ⟨y, hy, rfl⟩ := List.mem_map.mp hx
      obtain ⟨z, hz, rfl⟩ := List.mem_map.mp hy
      exact hread (special_mem hz)
    · simpa [specialLoads, comp_def] using hs
  · intro i h0 h1 h29
    rw [Machine.get_setR_of_ne h0]
    refine updates_agree (fun x hx => ?_) ?_
    · obtain ⟨y, hy, rfl⟩ := List.mem_map.mp hx
      exact hread (int_mem hy)
    · simpa [List.map_map, comp_def] using ints_loaded i h0 h1 h29

/-- The stack pointer goes back to the PCB, and `r29` and `r1` come last. -/
theorem run_popStack (h1 : m.get 1 = p) (h29 : m.get 29 = b) (hp156 : p + 4 ≠ b + 156)
    (hp44 : p + 4 ≠ b + 44) : (m.run popStack).mem = updates m.mem [(p + 4, b + 340)] ∧
      (m.run popStack).cpu.f = m.cpu.f ∧ (m.run popStack).cpu.special = m.cpu.special ∧
      (m.run popStack).get 1 = m.mem (b + 44) ∧ (m.run popStack).get 29 = m.mem (b + 156) ∧
      ∀ i, i ≠ 1 → i ≠ 29 → (m.run popStack).get i = m.get i := by
  have h156 : b + 340 + -184 = b + 156 := by bv_omega
  have h44 : b + 340 + -296 = b + 44 := by bv_omega
  have hrun : m.run popStack = (m.setR [(29, b + 340), (1, b + 340), (29, m.mem (b + 156)),
      (1, m.mem (b + 44))]).store [(p + 4, b + 340)] := by
    have hg1 : (m.setR [(29, b + 340)]).get 1 = p := by
      rw [Machine.get_setR_of_not_mem (by simp), h1]
    have hg29 : (m.setR [(29, b + 340)]).get 29 = b + 340 := Machine.get_setR_self (by decide)
    have hbase : (m.setR [(29, b + 340), (1, b + 340)]).get 1 = b + 340 := by
      rw [Machine.get_setR_of_ne (by decide)]
      simp [updates]
    have hbase' : (m.setR [(29, b + 340), (1, b + 340), (29, m.mem (b + 156))]).get 1 =
        b + 340 := by
      rw [Machine.get_setR_of_ne (by decide)]
      simp [updates]
    have hor : (b + 340) ||| 0 = b + 340 := by simp
    have hread (x : Word) (hx : p + 4 ≠ x) : updates m.mem [(p + 4, b + 340)] x = m.mem x :=
      updates_of_not_mem (by simpa using hx.symm)
    unfold popStack
    simp only [Machine.run_cons, Machine.run_nil, Machine.exec, h29, hg1, hg29, Machine.get_store,
      hor, Machine.store_setR, Machine.setR_setR, List.cons_append, List.nil_append, hbase, h156,
      Machine.store_mem, Machine.setR_mem, hread _ hp156, hbase', h44, hread _ hp44]
  rw [hrun]
  refine ⟨rfl, rfl, rfl, ?_, ?_, fun i hi hi' => ?_⟩
  · rw [Machine.get_store, Machine.get_setR_of_ne (by decide)]
    simp [updates]
  · rw [Machine.get_store, Machine.get_setR_of_ne (by decide)]
    simp [updates]
  · rw [Machine.get_store, Machine.get_setR_of_not_mem (by simp [hi, hi'])]

/-- The registers that come back, and what the PCB holds then. -/
structure Resumed (c : Cpu) (m : Machine) : Prop where
  ints : ∀ i, i ≠ 0 → m.get i = c.r i
  floats : m.cpu.f = c.f
  specials : ∀ s ∈ specialRegs.map (·.2.1), m.cpu.special s = c.special s
  status : m.cpu.special .status = c.special .isr

theorem intrreturn_spec (hp : m.mem a = p) (hb : m.mem p = b)
    (hframe : ∀ w ∈ frameWords c prev, m.mem (b + w.1) = w.2)
    (hpcb : ∀ o ∈ pushedOffsets, p ≠ b + o ∧ p + 4 ≠ b + o) :
    Resumed c (intrreturn a m) ∧
      (intrreturn a m).mem = updates m.mem [(p, prev), (p + 4, b + 340)] := by
  have hprev : m.mem (b + 40) = prev := hframe (40, prev) (by simp [frameWords])
  obtain ⟨R, hpop, h1, h29⟩ := run_popFrame hp hb hprev
  set m1 := (m.setR R).store [(p, prev)] with hm1
  have hframe1 (w : Word × Word) (hw : w ∈ frameWords c prev) : m1.mem (b + w.1) = w.2 := by
    have hne : b + w.1 ≠ p := ((hpcb _ (pushed_offset (pushed_of_frame hw))).1).symm
    exact (updates_of_not_mem (by simpa using hne)).trans (hframe w hw)
  obtain ⟨hmem2, hf2, hspecial2, h12, h292, hints2⟩ := run_popRegs (m := m1) h29 hframe1
  have hin {o : Word} (ho : o ∈ pushedOffsets) : p + 4 ≠ b + o := (hpcb o ho).2
  obtain ⟨hmem3, hf3, hspecial3, h13, h293, hints3⟩ := run_popStack (h12.trans h1) h292
    (hin (by simp [pushedOffsets])) (hin (by simp [pushedOffsets, intRegs]))
  have hrun : m.run (popFrame a ++ popRegs ++ popStack) = ((m1.run popRegs).run popStack) := by
    rw [Machine.run_append, Machine.run_append, hpop]
  unfold intrreturn rfe
  rw [hrun]
  refine ⟨⟨fun i hi => ?_, ?_, fun s hs => ?_, ?_⟩, ?_⟩
  · rw [Machine.get_setSpecial]
    by_cases hi1 : i = 1
    · subst hi1
      rw [h13, hmem2, hframe1 (44, c.r 1) (by simp [frameWords, regWords, intRegs])]
    · by_cases hi29 : i = 29
      · subst hi29
        rw [h293, hmem2, hframe1 (156, c.r 29) (by simp [frameWords, regWords])]
      · rw [hints3 i hi1 hi29, hints2 i hi hi1 hi29]
  · rw [Machine.setSpecial_f, hf3, hf2]
  · have hne : s ≠ .status := by
      revert s
      decide
    rw [Machine.setSpecial_special, updates_of_not_mem (by simpa using hne), hspecial3,
      hspecial2 s hs]
  · rw [Machine.setSpecial_special, hspecial3, hspecial2 .isr (by decide)]
    exact updates_of_mem (by simp) (List.mem_singleton_self _)
  · rw [Machine.setSpecial_mem, hmem3, hmem2, hm1, Machine.store_mem, ← updates_append]
    rfl

end Return

end dlxos.context
