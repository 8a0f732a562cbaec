-- The simulation of the atmosphere in `q5`. `krypton` estimates how often the
-- reactions 3 and 4 run, and starts two producers of atoms and four reactions,
-- which share the counters of a page under one lock.
import DlxOs.MonitorRules
import Mathlib.Logic.Function.Iterate

namespace dlxos.q5

open Function monitor

/-! ## The estimate -/

/-- The numbers that `krypton` estimates. -/
structure Est where
  est_num_n2 : Int
  est_num_o2 : Int
  est_num_no2 : Int
  est_num_o3 : Int

namespace Est

variable {temperature : Int} {e : Est}

/-- Reaction 3 is possible. -/
def CanNO2 (temperature : Int) (e : Est) : Prop :=
  e.est_num_n2 > 0 ∧ e.est_num_o2 > 1 ∧ temperature ≤ 120

/-- Reaction 4 is possible. -/
def CanO3 (temperature : Int) (e : Est) : Prop := e.est_num_o2 > 2 ∧ temperature ≥ 60

instance : Decidable (e.CanNO2 temperature) := by unfold CanNO2; infer_instance
instance : Decidable (e.CanO3 temperature) := by unfold CanO3; infer_instance

/-- The body of the loop. The second test sees what the first reaction left. -/
def body (temperature : Int) (e : Est) : Est :=
  let e := if e.CanNO2 temperature then
    { e with
      est_num_n2 := e.est_num_n2 - 1
      est_num_o2 := e.est_num_o2 - 2
      est_num_no2 := e.est_num_no2 + 1 } else e
  if e.CanO3 temperature then
    { e with est_num_o2 := e.est_num_o2 - 3, est_num_o3 := e.est_num_o3 + 1 } else e

/-- The condition of the loop. -/
def Goes (temperature : Int) (e : Est) : Prop := e.CanNO2 temperature ∨ e.CanO3 temperature

instance : Decidable (e.Goes temperature) := by unfold Goes; infer_instance

theorem body_lt (h : e.Goes temperature) :
    (e.body temperature).est_num_o2.toNat < e.est_num_o2.toNat := by
  unfold Goes at h
  unfold body
  by_cases h3 : e.CanNO2 temperature
  · rw [if_pos h3]
    unfold CanNO2 at h3
    dsimp only
    split
    · dsimp only
      omega
    · dsimp only
      omega
  · have h4 : e.CanO3 temperature := h.resolve_left h3
    rw [if_neg h3]
    dsimp only
    rw [if_pos h4]
    unfold CanO3 at h4
    dsimp only
    omega

/-- `while (…) { … }` -/
def loop (temperature : Int) (e : Est) : Est :=
  if e.Goes temperature then loop temperature (e.body temperature) else e
termination_by e.est_num_o2.toNat
decreasing_by exact body_lt (by assumption)

/-- What the reactions use up of the molecules. -/
structure Fits (num_n_i num_o_i : Nat) (temperature : Int) (e : Est) : Prop where
  n2 : e.est_num_n2 = (num_n_i / 2 : Nat) - e.est_num_no2
  o2 : e.est_num_o2 = (num_o_i / 2 : Nat) - 2 * e.est_num_no2 - 3 * e.est_num_o3
  n2_nonneg : 0 ≤ e.est_num_n2
  o2_nonneg : 0 ≤ e.est_num_o2
  no2_nonneg : 0 ≤ e.est_num_no2
  o3_nonneg : 0 ≤ e.est_num_o3
  hot : 120 < temperature → e.est_num_no2 = 0
  cold : temperature < 60 → e.est_num_o3 = 0

variable {num_n_i num_o_i : Nat}

theorem Fits.body (h : Fits num_n_i num_o_i temperature e) :
    Fits num_n_i num_o_i temperature (e.body temperature) := by
  obtain ⟨hn2, ho2, h1, h2, h3, h4, h5, h6⟩ := h
  unfold Est.body
  dsimp only
  by_cases hno2 : e.CanNO2 temperature
  · rw [if_pos hno2]
    unfold CanNO2 at hno2
    split
    · rename_i ho3
      unfold CanO3 at ho3
      dsimp only at ho3
      constructor <;> dsimp only <;> omega
    · constructor <;> dsimp only <;> omega
  · rw [if_neg hno2]
    split
    · rename_i ho3
      unfold CanO3 at ho3
      constructor <;> dsimp only <;> omega
    · exact ⟨hn2, ho2, h1, h2, h3, h4, h5, h6⟩

/-- The loop ends after some turns, with its condition false. -/
theorem loop_ends (temperature : Int) (e : Est) :
    ∃ n, (∀ k < n, ((body temperature)^[k] e).Goes temperature) ∧
      (body temperature)^[n] e = e.loop temperature ∧ ¬ (e.loop temperature).Goes temperature := by
  fun_induction loop temperature e with
  | case1 e hgoes ih =>
    obtain ⟨n, hbefore, hlast, hend⟩ := ih
    refine ⟨n + 1, fun k hk => ?_, hlast, hend⟩
    rcases k with _ | k
    · exact hgoes
    · exact hbefore k (by omega)
  | case2 e hgoes =>
    exact ⟨0, by simp, rfl, hgoes⟩

end Est

/-- The numbers before the loop. -/
def Est.start (num_n_i num_o_i : Nat) : Est := ⟨(num_n_i / 2 : Nat), (num_o_i / 2 : Nat), 0, 0⟩

/-- What `krypton` computes. -/
def estimate (num_n_i num_o_i : Nat) (temperature : Int) : Est :=
  (Est.start num_n_i num_o_i).loop temperature

theorem Est.Fits.iterate (num_n_i num_o_i : Nat) (temperature : Int) (k : Nat) :
    Est.Fits num_n_i num_o_i temperature
      ((Est.body temperature)^[k] (Est.start num_n_i num_o_i)) := by
  induction k with
  | zero => constructor <;> simp [Est.start] <;> omega
  | succ k ih =>
    rw [Function.iterate_succ_apply']
    exact ih.body

theorem estimate_fits (num_n_i num_o_i : Nat) (temperature : Int) :
    Est.Fits num_n_i num_o_i temperature (estimate num_n_i num_o_i temperature) := by
  obtain ⟨n, _, hlast, _⟩ := Est.loop_ends temperature (Est.start num_n_i num_o_i)
  unfold estimate
  rw [← hlast]
  exact Est.Fits.iterate num_n_i num_o_i temperature n

/-! ## The page -/

/-- The shared page. -/
structure AtmosphereStat where
  num_n : Int
  num_o : Int
  num_n2 : Int
  num_o2 : Int
  num_no2 : Int
  num_o3 : Int

/-- The page with the numbers of atoms that were produced, which no program
reads. -/
structure Stat extends AtmosphereStat where
  produced_n : Nat
  produced_o : Nat

/-- `stat->num_n += 1;` -/
def Stat.add_n (stat : Stat) : Stat :=
  { stat with num_n := stat.num_n + 1, produced_n := stat.produced_n + 1 }

/-- `stat->num_o += 1;` -/
def Stat.add_o (stat : Stat) : Stat :=
  { stat with num_o := stat.num_o + 1, produced_o := stat.produced_o + 1 }

/-! ## The processes -/

inductive Proc where
  | krypton
  | producer_n
  | producer_o
  | reaction_1
  | reaction_2
  | reaction_3
  | reaction_4
deriving DecidableEq

inductive Cond where
  | c_N2_ready
  | c_O2_ready
  | c_NO2_ready
  | c_O3_ready
deriving DecidableEq

inductive Sem where
  | s_procs_completed
deriving DecidableEq

/-- The end of `krypton.c`. -/
inductive KryptonLine where
  | wait
  | done
deriving DecidableEq

/-- A line of `producer_n.c` or `producer_o.c`. -/
inductive ProducerLine where
  | loop
  | add
  | read_n
  | read_o
  | signal
  | release
  | done
deriving DecidableEq

inductive Reaction1Line where
  | loop
  | test
  | wait
  | take
  | put
  | test_no2
  | signal_no2
  | release
  | done
deriving DecidableEq

inductive Reaction2Line where
  | loop
  | test
  | wait
  | take
  | put
  | test_no2
  | signal_no2
  | test_o3
  | signal_o3
  | release
  | done
deriving DecidableEq

inductive Reaction3Line where
  | loop
  | test
  | wait
  | take_n2
  | take_o2
  | put
  | release
  | done
deriving DecidableEq

inductive Reaction4Line where
  | loop
  | test
  | wait
  | take
  | put
  | release
  | done
deriving DecidableEq

/-- A place in the program of a reaction. -/
structure Loc (Line : Type) where
  line : Line
  i : Nat

/-- A place in the program of a producer. -/
structure ProducerLoc extends Loc ProducerLine where
  curr_num_n : Int
  curr_num_o : Int

def krypton : KryptonLine → Op KryptonLine Stat Cond Sem
  | .wait => .semWait .s_procs_completed .done
  | .done => .done

/-- The two producers differ in the counter, in the local that they test, and
in the condition. -/
def producer (add : Stat → Stat) (curr : ProducerLoc → Int) (ready : Cond) (total : Nat)
    (l : ProducerLoc) : Op ProducerLoc Stat Cond Sem :=
  match l.line with
  | .loop =>
    if l.i < total then .acquire { l with line := .add }
    else .semSignal .s_procs_completed { l with line := .done }
  | .add => .access fun stat => (add stat, { l with line := .read_n })
  | .read_n => .access fun stat => (stat, { l with line := .read_o, curr_num_n := stat.num_n })
  | .read_o => .access fun stat =>
    let l := { l with curr_num_o := stat.num_o }
    (stat, { l with line := if curr l > 1 then .signal else .release })
  | .signal => .signal ready { l with line := .release }
  | .release => .release { l with line := .loop, i := l.i + 1 }
  | .done => .done

def producer_n (total_num_n : Nat) : ProducerLoc → Op ProducerLoc Stat Cond Sem :=
  producer Stat.add_n (·.curr_num_n) .c_N2_ready total_num_n

def producer_o (total_num_o : Nat) : ProducerLoc → Op ProducerLoc Stat Cond Sem :=
  producer Stat.add_o (·.curr_num_o) .c_O2_ready total_num_o

/-- `N + N -> N2` -/
def reaction_1 (num_n_i : Nat) (l : Loc Reaction1Line) : Op (Loc Reaction1Line) Stat Cond Sem :=
  let i := l.i
  match l.line with
  | .loop =>
    if i < num_n_i / 2 then .acquire ⟨.test, i⟩ else .semSignal .s_procs_completed ⟨.done, i⟩
  | .test => .access fun stat => (stat, if stat.num_n < 2 then ⟨.wait, i⟩ else ⟨.take, i⟩)
  | .wait => .wait .c_N2_ready ⟨.take, i⟩
  | .take => .access fun stat => ({ stat with num_n := stat.num_n - 2 }, ⟨.put, i⟩)
  | .put => .access fun stat => ({ stat with num_n2 := stat.num_n2 + 1 }, ⟨.test_no2, i⟩)
  | .test_no2 => .access fun stat =>
    (stat, if stat.num_n2 > 0 ∧ stat.num_o2 > 1 then ⟨.signal_no2, i⟩ else ⟨.release, i⟩)
  | .signal_no2 => .signal .c_NO2_ready ⟨.release, i⟩
  | .release => .release ⟨.loop, i + 1⟩
  | .done => .done

/-- `O + O -> O2` -/
def reaction_2 (num_o_i : Nat) (l : Loc Reaction2Line) : Op (Loc Reaction2Line) Stat Cond Sem :=
  let i := l.i
  match l.line with
  | .loop =>
    if i < num_o_i / 2 then .acquire ⟨.test, i⟩ else .semSignal .s_procs_completed ⟨.done, i⟩
  | .test => .access fun stat => (stat, if stat.num_o < 2 then ⟨.wait, i⟩ else ⟨.take, i⟩)
  | .wait => .wait .c_O2_ready ⟨.take, i⟩
  | .take => .access fun stat => ({ stat with num_o := stat.num_o - 2 }, ⟨.put, i⟩)
  | .put => .access fun stat => ({ stat with num_o2 := stat.num_o2 + 1 }, ⟨.test_no2, i⟩)
  | .test_no2 => .access fun stat =>
    (stat, if stat.num_n2 > 0 ∧ stat.num_o2 > 1 then ⟨.signal_no2, i⟩ else ⟨.test_o3, i⟩)
  | .signal_no2 => .signal .c_NO2_ready ⟨.test_o3, i⟩
  | .test_o3 => .access fun stat =>
    (stat, if stat.num_o2 > 2 then ⟨.signal_o3, i⟩ else ⟨.release, i⟩)
  | .signal_o3 => .signal .c_O3_ready ⟨.release, i⟩
  | .release => .release ⟨.loop, i + 1⟩
  | .done => .done

/-- `N2 + 2O2 -> 2NO2` -/
def reaction_3 (est_num_no2 temperature : Int) (l : Loc Reaction3Line) :
    Op (Loc Reaction3Line) Stat Cond Sem :=
  let i := l.i
  match l.line with
  | .loop =>
    if i < est_num_no2 ∧ ¬ temperature > 120 then .acquire ⟨.test, i⟩
    else .semSignal .s_procs_completed ⟨.done, i⟩
  | .test => .access fun stat =>
    (stat, if stat.num_n2 < 1 ∨ stat.num_o2 < 2 then ⟨.wait, i⟩ else ⟨.take_n2, i⟩)
  | .wait => .wait .c_NO2_ready ⟨.test, i⟩
  | .take_n2 => .access fun stat => ({ stat with num_n2 := stat.num_n2 - 1 }, ⟨.take_o2, i⟩)
  | .take_o2 => .access fun stat => ({ stat with num_o2 := stat.num_o2 - 2 }, ⟨.put, i⟩)
  | .put => .access fun stat => ({ stat with num_no2 := stat.num_no2 + 2 }, ⟨.release, i⟩)
  | .release => .release ⟨.loop, i + 1⟩
  | .done => .done

/-- `3O2 -> 2O3` -/
def reaction_4 (est_num_o3 temperature : Int) (l : Loc Reaction4Line) :
    Op (Loc Reaction4Line) Stat Cond Sem :=
  let i := l.i
  match l.line with
  | .loop =>
    if i < est_num_o3 ∧ ¬ temperature < 60 then .acquire ⟨.test, i⟩
    else .semSignal .s_procs_completed ⟨.done, i⟩
  | .test => .access fun stat => (stat, if stat.num_o2 < 3 then ⟨.wait, i⟩ else ⟨.take, i⟩)
  | .wait => .wait .c_O3_ready ⟨.test, i⟩
  | .take => .access fun stat => ({ stat with num_o2 := stat.num_o2 - 3 }, ⟨.put, i⟩)
  | .put => .access fun stat => ({ stat with num_o3 := stat.num_o3 + 2 }, ⟨.release, i⟩)
  | .release => .release ⟨.loop, i + 1⟩
  | .done => .done

/-! ## The program -/

abbrev L : Proc → Type
  | .krypton => KryptonLine
  | .producer_n | .producer_o => ProducerLoc
  | .reaction_1 => Loc Reaction1Line
  | .reaction_2 => Loc Reaction2Line
  | .reaction_3 => Loc Reaction3Line
  | .reaction_4 => Loc Reaction4Line

/-- The lines between `lock_acquire` and `lock_release`. -/
def inside : ∀ p : Proc, L p → Bool
  | .krypton, _ => false
  | .producer_n, l | .producer_o, l => l.line ≠ ProducerLine.loop && l.line ≠ .done
  | .reaction_1, l => l.line ≠ Reaction1Line.loop && l.line ≠ .done
  | .reaction_2, l => l.line ≠ Reaction2Line.loop && l.line ≠ .done
  | .reaction_3, l => l.line ≠ Reaction3Line.loop && l.line ≠ .done
  | .reaction_4, l => l.line ≠ Reaction4Line.loop && l.line ≠ .done

theorem producer_obeys {add : Stat → Stat} {curr : ProducerLoc → Int} {ready : Cond}
    {total : Nat} (l : ProducerLoc) :
    (producer add curr ready total l).Obeys (inside .producer_n) (inside .producer_n l) := by
  rcases l with ⟨⟨_ | _ | _ | _ | _ | _ | _, i⟩, n, o⟩ <;> simp only [producer]
  · split <;> simp [Op.Obeys, inside]
  iterate 2
    · simp [Op.Obeys, inside]
  · refine ⟨rfl, fun stat => ?_⟩
    dsimp only [inside]
    split <;> rfl
  all_goals simp [Op.Obeys, inside]

theorem reaction_1_obeys {num_n_i : Nat} (l : Loc Reaction1Line) :
    (reaction_1 num_n_i l).Obeys (inside .reaction_1) (inside .reaction_1 l) := by
  rcases l with ⟨_ | _ | _ | _ | _ | _ | _ | _ | _, i⟩ <;> simp only [reaction_1]
  · split <;> simp [Op.Obeys, inside]
  · refine ⟨rfl, fun stat => ?_⟩
    dsimp only
    split <;> rfl
  iterate 3
    · simp [Op.Obeys, inside]
  · refine ⟨rfl, fun stat => ?_⟩
    dsimp only
    split <;> rfl
  all_goals simp [Op.Obeys, inside]

theorem reaction_2_obeys {num_o_i : Nat} (l : Loc Reaction2Line) :
    (reaction_2 num_o_i l).Obeys (inside .reaction_2) (inside .reaction_2 l) := by
  rcases l with ⟨_ | _ | _ | _ | _ | _ | _ | _ | _ | _ | _, i⟩ <;> simp only [reaction_2]
  · split <;> simp [Op.Obeys, inside]
  · refine ⟨rfl, fun stat => ?_⟩
    dsimp only
    split <;> rfl
  iterate 3
    · simp [Op.Obeys, inside]
  · refine ⟨rfl, fun stat => ?_⟩
    dsimp only
    split <;> rfl
  · simp [Op.Obeys, inside]
  · refine ⟨rfl, fun stat => ?_⟩
    dsimp only
    split <;> rfl
  all_goals simp [Op.Obeys, inside]

theorem reaction_3_obeys {est_num_no2 temperature : Int} (l : Loc Reaction3Line) :
    (reaction_3 est_num_no2 temperature l).Obeys (inside .reaction_3) (inside .reaction_3 l) := by
  rcases l with ⟨_ | _ | _ | _ | _ | _ | _ | _, i⟩ <;> simp only [reaction_3]
  · split <;> simp [Op.Obeys, inside]
  · refine ⟨rfl, fun stat => ?_⟩
    dsimp only
    split <;> rfl
  all_goals simp [Op.Obeys, inside]

theorem reaction_4_obeys {est_num_o3 temperature : Int} (l : Loc Reaction4Line) :
    (reaction_4 est_num_o3 temperature l).Obeys (inside .reaction_4) (inside .reaction_4 l) := by
  rcases l with ⟨_ | _ | _ | _ | _ | _ | _, i⟩ <;> simp only [reaction_4]
  · split <;> simp [Op.Obeys, inside]
  · refine ⟨rfl, fun stat => ?_⟩
    dsimp only
    split <;> rfl
  all_goals simp [Op.Obeys, inside]

/-- The six processes that `krypton` creates, and its own wait for them. -/
def program (num_n_i num_o_i : Nat) (temperature : Int) : Program Proc L Stat Cond Sem :=
  let est := estimate num_n_i num_o_i temperature
  { op := fun p => match p with
      | .krypton => krypton
      | .producer_n => producer_n num_n_i
      | .producer_o => producer_o num_o_i
      | .reaction_1 => reaction_1 num_n_i
      | .reaction_2 => reaction_2 num_o_i
      | .reaction_3 => reaction_3 est.est_num_no2 temperature
      | .reaction_4 => reaction_4 est.est_num_o3 temperature
    inside := inside
    obeys := fun p l => match p, l with
      | .krypton, l => by cases l <;> simp [krypton, Op.Obeys, inside]
      | .producer_n, l | .producer_o, l => producer_obeys l
      | .reaction_1, l => reaction_1_obeys l
      | .reaction_2, l => reaction_2_obeys l
      | .reaction_3, l => reaction_3_obeys l
      | .reaction_4, l => reaction_4_obeys l
    start := fun p => match p with
      | .krypton => .wait
      | .producer_n | .producer_o => ⟨⟨.loop, 0⟩, 0, 0⟩
      | .reaction_1 | .reaction_2 | .reaction_3 | .reaction_4 => ⟨.loop, 0⟩
    outside := by rintro (_ | _ | _ | _ | _ | _ | _) <;> rfl
    mem := ⟨⟨0, 0, 0, 0, 0, 0⟩, 0, 0⟩
    count := fun _ => -(6 - 1) }

end dlxos.q5
