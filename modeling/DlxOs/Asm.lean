-- The instructions of the DLX processor that save and restore registers, and
-- what a sequence of loads or stores does. Memory is read and written by words,
-- each at its address. The module names no routine.
import Mathlib.Data.BitVec
import Mathlib.Data.List.Nodup
import Mathlib.Logic.Function.Basic

namespace dlx

open Function

abbrev Word := BitVec 32
abbrev Reg := Fin 32

instance Reg.neZero : NeZero 32 := ⟨by decide⟩

/-! ## Lists of updates -/

section Updates

variable {α β : Type} [DecidableEq α] {f : α → β} {l l' : List (α × β)} {a : α} {b : β}

/-- The function with the values of the list, one after another. -/
def updates (f : α → β) (l : List (α × β)) : α → β := l.foldl (fun f x => update f x.1 x.2) f

theorem updates_append : updates f (l ++ l') = updates (updates f l) l' := List.foldl_append

theorem updates_of_not_mem (h : ∀ x ∈ l, a ≠ x.1) : updates f l a = f a := by
  induction l generalizing f with
  | nil => rfl
  | cons x l ih =>
    have hrest : ∀ y ∈ l, a ≠ y.1 := fun y hy => h y (by simp [hy])
    exact (ih hrest).trans (update_of_ne (h x (by simp)) ..)

theorem updates_of_mem (hnd : (l.map (·.1)).Nodup) (h : (a, b) ∈ l) : updates f l a = b := by
  induction l generalizing f with
  | nil => cases h
  | cons x l ih =>
    obtain ⟨hx, hnd⟩ := List.nodup_cons.mp hnd
    rcases List.mem_cons.mp h with h | h
    · subst h
      have hrest : ∀ y ∈ l, a ≠ y.1 := fun y hy he => hx (List.mem_map.mpr ⟨y, hy, he.symm⟩)
      exact (updates_of_not_mem hrest).trans (update_self ..)
    · exact ih hnd h

/-- Where each value is that of one function, the order does not matter. -/
theorem updates_agree {g : α → β} (hg : ∀ x ∈ l, x.2 = g x.1) (h : a ∈ l.map (·.1)) :
    updates f l a = g a := by
  induction l generalizing f with
  | nil => cases h
  | cons x l ih =>
    have hrest : ∀ y ∈ l, y.2 = g y.1 := fun y hy => hg y (by simp [hy])
    by_cases hl : a ∈ l.map (·.1)
    · exact ih hrest hl
    · have hx : a = x.1 := by simpa [hl] using h
      have hnot : ∀ y ∈ l, a ≠ y.1 := fun y hy he => hl (List.mem_map.mpr ⟨y, hy, he.symm⟩)
      subst hx
      exact (updates_of_not_mem hnot).trans ((update_self ..).trans (hg x (by simp)))

theorem updates_cons {x : α × β} : updates f (x :: l) = updates (update f x.1 x.2) l := rfl

theorem updates_congr {f' : α → β} (h : f a = f' a) : updates f l a = updates f' l a := by
  induction l generalizing f f' with
  | nil => exact h
  | cons x l ih =>
    rw [updates_cons, updates_cons]
    apply ih
    by_cases hx : a = x.1
    · subst hx
      rw [update_self, update_self]
    · rw [update_of_ne hx, update_of_ne hx, h]

/-- Places that are named by the values of a function. -/
theorem updates_map {γ : Type} [DecidableEq γ] {g : γ → α} {l : List (γ × β)} {c : γ}
    (hg : ∀ x ∈ l, g c = g x.1 → c = x.1) :
    updates f (l.map fun x => (g x.1, x.2)) (g c) = updates (fun c => f (g c)) l c := by
  induction l generalizing f with
  | nil => rfl
  | cons x l ih =>
    rw [List.map_cons, updates_cons, updates_cons, ih fun y hy => hg y (by simp [hy])]
    apply updates_congr
    by_cases hc : c = x.1
    · subst hc
      rw [update_self, update_self]
    · have hne : g c ≠ g x.1 := fun he => hc (hg x (by simp) he)
      rw [update_of_ne hne, update_of_ne hc]

end Updates

/-! ## The processor -/

inductive Special where
  | ir31
  | iar
  | isr
  | cause
  | fault
  | ptbase
  | ptsize
  | ptbits
  | status
deriving DecidableEq

structure Cpu where
  r : Reg → Word
  f : Reg → Word
  special : Special → Word

structure Machine where
  cpu : Cpu
  mem : Word → Word

inductive Instr where
  | sw (off : Word) (base rs : Reg)
  | lw (rd : Reg) (off : Word) (base : Reg)
  | sd (off : Word) (base fs : Reg)
  | ld (fd : Reg) (off : Word) (base : Reg)
  | movs2i (rd : Reg) (s : Special)
  | movi2s (s : Special) (rs : Reg)
  | lhi (rd : Reg) (imm : Word)
  | addui (rd rs : Reg) (imm : Word)
  | subui (rd rs : Reg) (imm : Word)
  | andi (rd rs : Reg) (imm : Word)
  | ori (rd rs : Reg) (imm : Word)

/-- `r0` is always zero. -/
def Cpu.get (c : Cpu) (i : Reg) : Word := if i = 0 then 0 else c.r i

namespace Machine

def get (m : Machine) (i : Reg) : Word := m.cpu.get i

/-- Some registers take new values, one after another. -/
def setR (m : Machine) (l : List (Reg × Word)) : Machine :=
  { m with cpu := { m.cpu with r := updates m.cpu.r l } }

def setF (m : Machine) (l : List (Reg × Word)) : Machine :=
  { m with cpu := { m.cpu with f := updates m.cpu.f l } }

def setSpecial (m : Machine) (l : List (Special × Word)) : Machine :=
  { m with cpu := { m.cpu with special := updates m.cpu.special l } }

/-- Some words are stored, each at its address. -/
def store (m : Machine) (l : List (Word × Word)) : Machine := { m with mem := updates m.mem l }

/-- One instruction. A double word takes two registers and two words. -/
def exec (m : Machine) : Instr → Machine
  | .sw off base rs => m.store [(m.get base + off, m.get rs)]
  | .lw rd off base => m.setR [(rd, m.mem (m.get base + off))]
  | .sd off base fs =>
    m.store [(m.get base + off, m.cpu.f fs), (m.get base + (off + 4), m.cpu.f (fs + 1))]
  | .ld fd off base =>
    m.setF [(fd, m.mem (m.get base + off)), (fd + 1, m.mem (m.get base + (off + 4)))]
  | .movs2i rd s => m.setR [(rd, m.cpu.special s)]
  | .movi2s s rs => m.setSpecial [(s, m.get rs)]
  | .lhi rd imm => m.setR [(rd, imm <<< 16)]
  | .addui rd rs imm => m.setR [(rd, m.get rs + imm)]
  | .subui rd rs imm => m.setR [(rd, m.get rs - imm)]
  | .andi rd rs imm => m.setR [(rd, m.get rs &&& imm)]
  | .ori rd rs imm => m.setR [(rd, m.get rs ||| imm)]

def run (m : Machine) (is : List Instr) : Machine := is.foldl exec m

variable {m : Machine} {i : Reg} {v : Word}

@[simp] theorem run_nil : m.run [] = m := rfl
@[simp] theorem run_cons (x : Instr) (is : List Instr) : m.run (x :: is) = (m.exec x).run is := rfl

theorem run_append (is js : List Instr) : m.run (is ++ js) = (m.run is).run js :=
  List.foldl_append

section Fields

variable {l : List (Reg × Word)} {ls : List (Special × Word)} {lw : List (Word × Word)}

theorem get_of_ne (h : i ≠ 0) : m.get i = m.cpu.r i := if_neg h
theorem get_setR_of_ne (h : i ≠ 0) : (m.setR l).get i = updates m.cpu.r l i := if_neg h

theorem get_setR_of_not_mem (h : ∀ x ∈ l, i ≠ x.1) : (m.setR l).get i = m.get i := by
  unfold get Cpu.get
  split
  · rfl
  · exact updates_of_not_mem h

theorem setR_setR {l' : List (Reg × Word)} : (m.setR l).setR l' = m.setR (l ++ l') := by
  unfold setR
  rw [updates_append]

theorem store_setR : (m.store lw).setR l = (m.setR l).store lw := rfl

theorem store_store {lw' : List (Word × Word)} :
    (m.store lw).store lw' = m.store (lw ++ lw') := by
  unfold store
  rw [updates_append]

@[simp] theorem get_setR_self (h : i ≠ 0) : (m.setR [(i, v)]).get i = v := by
  simp [get_setR_of_ne h, updates]

@[simp] theorem setR_r : (m.setR l).cpu.r = updates m.cpu.r l := rfl
@[simp] theorem setR_f : (m.setR l).cpu.f = m.cpu.f := rfl
@[simp] theorem setR_special : (m.setR l).cpu.special = m.cpu.special := rfl
@[simp] theorem setR_mem : (m.setR l).mem = m.mem := rfl
@[simp] theorem get_setF : (m.setF l).get i = m.get i := rfl
@[simp] theorem setF_f : (m.setF l).cpu.f = updates m.cpu.f l := rfl
@[simp] theorem setF_special : (m.setF l).cpu.special = m.cpu.special := rfl
@[simp] theorem setF_mem : (m.setF l).mem = m.mem := rfl
@[simp] theorem get_setSpecial : (m.setSpecial ls).get i = m.get i := rfl
@[simp] theorem setSpecial_f : (m.setSpecial ls).cpu.f = m.cpu.f := rfl
@[simp] theorem setSpecial_special :
    (m.setSpecial ls).cpu.special = updates m.cpu.special ls := rfl
@[simp] theorem setSpecial_mem : (m.setSpecial ls).mem = m.mem := rfl
@[simp] theorem get_store : (m.store lw).get i = m.get i := rfl
@[simp] theorem store_cpu : (m.store lw).cpu = m.cpu := rfl
@[simp] theorem store_mem : (m.store lw).mem = updates m.mem lw := rfl

end Fields

end Machine

/-! ## Stores and loads from one base -/

section Stores

variable {mem : Word → Word} {b off v : Word} {l l' : List (Word × Word)}

/-- A list of offsets, as addresses. -/
def offsets (b : Word) (l : List (Word × Word)) : List (Word × Word) :=
  l.map fun x => (b + x.1, x.2)

theorem offsets_append : offsets b (l ++ l') = offsets b l ++ offsets b l' := List.map_append

theorem updates_offset (hnd : (l.map (·.1)).Nodup) (h : (off, v) ∈ l) :
    updates mem (offsets b l) (b + off) = v := by
  refine updates_of_mem ?_ (List.mem_map.mpr ⟨_, h, rfl⟩)
  have hinj : Injective fun x : Word => b + x := fun x y hxy => by simpa using hxy
  simpa [offsets, List.map_map, comp_def] using hnd.map hinj

theorem updates_offsets_of_ne {a : Word} (h : ∀ x ∈ l, a ≠ b + x.1) :
    updates mem (offsets b l) a = mem a := by
  refine updates_of_not_mem fun x hx => ?_
  obtain ⟨y, hy, rfl⟩ := List.mem_map.mp hx
  exact h y hy

end Stores

variable {m : Machine} {base : Reg}

/-- `sw off(base),r` for each pair. -/
def sws (base : Reg) (l : List (Word × Reg)) : List Instr := l.map fun x => .sw x.1 base x.2

theorem run_sws (l : List (Word × Reg)) : m.run (sws base l) =
    m.store (offsets (m.get base) (l.map fun x => (x.1, m.get x.2))) := by
  induction l generalizing m with
  | nil => rfl
  | cons x l ih => exact ih

/-- `sd off(base),f` for each pair. -/
def sds (base : Reg) (l : List (Word × Reg)) : List Instr := l.map fun x => .sd x.1 base x.2

theorem run_sds (l : List (Word × Reg)) : m.run (sds base l) =
    m.store (offsets (m.get base)
      (l.flatMap fun x => [(x.1, m.cpu.f x.2), (x.1 + 4, m.cpu.f (x.2 + 1))])) := by
  induction l generalizing m with
  | nil => rfl
  | cons x l ih => exact ih

/-- `movs2i r,s` and `sw off(base),r` for each triple. -/
def sspecials (base : Reg) (l : List (Reg × Special × Word)) : List Instr :=
  l.flatMap fun x => [.movs2i x.1 x.2.1, .sw x.2.2 base x.1]

theorem run_sspecials (l : List (Reg × Special × Word)) (hbase : ∀ x ∈ l, base ≠ x.1)
    (hzero : ∀ x ∈ l, x.1 ≠ 0) : m.run (sspecials base l) =
    (m.setR (l.map fun x => (x.1, m.cpu.special x.2.1))).store
      (offsets (m.get base) (l.map fun x => (x.2.2, m.cpu.special x.2.1))) := by
  induction l generalizing m with
  | nil => rfl
  | cons x l ih =>
    have hx : (m.setR [(x.1, m.cpu.special x.2.1)]).get base = m.get base :=
      Machine.get_setR_of_not_mem (by simp [hbase x (by simp)])
    have hself : (m.setR [(x.1, m.cpu.special x.2.1)]).get x.1 = m.cpu.special x.2.1 :=
      Machine.get_setR_self (hzero x (by simp))
    refine (ih (fun y hy => hbase y (by simp [hy])) (fun y hy => hzero y (by simp [hy]))).trans ?_
    simp only [Machine.exec, hx, hself, Machine.get_store]
    rfl

/-- `lw r,off(base)` for each pair. -/
def lws (base : Reg) (l : List (Reg × Word)) : List Instr := l.map fun x => .lw x.1 x.2 base

theorem run_lws (l : List (Reg × Word)) (hbase : ∀ x ∈ l, base ≠ x.1) : m.run (lws base l) =
    m.setR (l.map fun x => (x.1, m.mem (m.get base + x.2))) := by
  induction l generalizing m with
  | nil => rfl
  | cons x l ih =>
    have hx : (m.setR [(x.1, m.mem (m.get base + x.2))]).get base = m.get base :=
      Machine.get_setR_of_not_mem (by simp [hbase x (by simp)])
    refine (ih fun y hy => hbase y (by simp [hy])).trans ?_
    simp only [Machine.exec, hx]
    rfl

/-- `ld f,off(base)` for each pair. -/
def lds (base : Reg) (l : List (Reg × Word)) : List Instr := l.map fun x => .ld x.1 x.2 base

theorem run_lds (l : List (Reg × Word)) : m.run (lds base l) =
    m.setF (l.flatMap fun x => [(x.1, m.mem (m.get base + x.2)),
      (x.1 + 1, m.mem (m.get base + (x.2 + 4)))]) := by
  induction l generalizing m with
  | nil => rfl
  | cons x l ih => exact ih

/-- `lw r,off(base)` and `movi2s s,r` for each pair. -/
def lspecials (base r : Reg) (l : List (Special × Word)) : List Instr :=
  l.flatMap fun x => [.lw r x.2 base, .movi2s x.1 r]

theorem run_lspecials {r : Reg} (l : List (Special × Word)) (hbase : base ≠ r) (hzero : r ≠ 0) :
    m.run (lspecials base r l) =
      (m.setR (l.map fun x => (r, m.mem (m.get base + x.2)))).setSpecial
        (l.map fun x => (x.1, m.mem (m.get base + x.2))) := by
  induction l generalizing m with
  | nil => rfl
  | cons x l ih =>
    have hx : (m.setR [(r, m.mem (m.get base + x.2))]).get base = m.get base :=
      Machine.get_setR_of_not_mem (by simp [hbase])
    refine ih.trans ?_
    simp only [Machine.exec, Machine.get_setSpecial, hx, Machine.get_setR_self hzero]
    rfl

/-- An address that is put together from its two halves. -/
theorem lhi_addui (a : Word) : (a >>> 16 &&& 0xffff) <<< 16 + (a &&& 0xffff) = a := by
  have hhigh : (a >>> 16 &&& 0xffff).toNat = a.toNat / 65536 % 65536 := by
    rw [BitVec.toNat_and, BitVec.toNat_ushiftRight, Nat.shiftRight_eq_div_pow]
    exact Nat.and_two_pow_sub_one_eq_mod _ 16
  have hlow : (a &&& 0xffff).toNat = a.toNat % 65536 := by
    rw [BitVec.toNat_and]
    exact Nat.and_two_pow_sub_one_eq_mod _ 16
  apply BitVec.eq_of_toNat_eq
  rw [BitVec.toNat_add, BitVec.toNat_shiftLeft, hhigh, hlow, Nat.shiftLeft_eq]
  have hlt := a.isLt
  omega

end dlx
