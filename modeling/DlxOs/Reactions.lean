-- The accounts of the simulation of the atmosphere in `q5`: what its processes
-- have added, taken and given at each line, what each of them knows there, and
-- what one step of a process does to the accounts.
import DlxOs.Atmosphere
import Mathlib.Data.Int.SuccPred

namespace dlxos.q5

open Function monitor

variable {N O : Nat} {T : Int}

/-! ## Accounts -/

/-- How many turns of the loop have come past some line. -/
def Loc.past {Line : Type} [DecidableEq Line] (l : Loc Line) (lines : List Line) : Int :=
  l.i + if l.line ∈ lines then 1 else 0

/-- The atoms that a producer has added. -/
def added (l : ProducerLoc) : Int := l.toLoc.past [.read_n, .read_o, .signal, .release]

def took_1 (l : Loc Reaction1Line) : Int := l.past [.put, .test_no2, .signal_no2, .release]
def gave_1 (l : Loc Reaction1Line) : Int := l.past [.test_no2, .signal_no2, .release]

def took_2 (l : Loc Reaction2Line) : Int :=
  l.past [.put, .test_no2, .signal_no2, .test_o3, .signal_o3, .release]
def gave_2 (l : Loc Reaction2Line) : Int :=
  l.past [.test_no2, .signal_no2, .test_o3, .signal_o3, .release]

def took_n2 (l : Loc Reaction3Line) : Int := l.past [.take_o2, .put, .release]
def took_o2 (l : Loc Reaction3Line) : Int := l.past [.put, .release]
def gave_no2 (l : Loc Reaction3Line) : Int := l.past [.release]

def took_4 (l : Loc Reaction4Line) : Int := l.past [.put, .release]
def gave_4 (l : Loc Reaction4Line) : Int := l.past [.release]

/-- The counters, from the places of the processes. -/
structure Counts (locs : ∀ p, L p) (stat : Stat) : Prop where
  produced_n : (stat.produced_n : Int) = added (locs .producer_n)
  produced_o : (stat.produced_o : Int) = added (locs .producer_o)
  num_n : stat.num_n = added (locs .producer_n) - 2 * took_1 (locs .reaction_1)
  num_o : stat.num_o = added (locs .producer_o) - 2 * took_2 (locs .reaction_2)
  num_n2 : stat.num_n2 = gave_1 (locs .reaction_1) - took_n2 (locs .reaction_3)
  num_o2 : stat.num_o2 =
    gave_2 (locs .reaction_2) - 2 * took_o2 (locs .reaction_3) - 3 * took_4 (locs .reaction_4)
  num_no2 : stat.num_no2 = 2 * gave_no2 (locs .reaction_3)
  num_o3 : stat.num_o3 = 2 * gave_4 (locs .reaction_4)

variable {stat stat' : Stat}

/-- A producer adds an atom where it goes on. -/
theorem producer_adds {add : Stat → Stat} {curr : ProducerLoc → Int} {ready : Cond} {total : Nat}
    {l l' : ProducerLoc} (h : (producer add curr ready total l).next stat = some (l', stat')) :
    stat' = (if l.line = .add then add stat else stat) ∧
      added l' = added l + if l.line = .add then 1 else 0 := by
  rcases l with ⟨⟨_ | _ | _ | _ | _ | _ | _, i⟩, n, o⟩ <;> simp only [producer] at h
  · split at h <;> cases h <;> simp [added, Loc.past]
  · cases h
    simp [added, Loc.past]
  · cases h
    simp [added, Loc.past]
  · cases h
    simp only [reduceCtorEq, if_false, true_and]
    split <;> simp [added, Loc.past]
  · cases h
    simp [added, Loc.past]
  · cases h
    simp [added, Loc.past]
  · cases h

theorem reaction_1_adds {l l' : Loc Reaction1Line}
    (h : (reaction_1 N l).next stat = some (l', stat')) :
    stat' = { stat with
      num_n := stat.num_n - 2 * (took_1 l' - took_1 l)
      num_n2 := stat.num_n2 + (gave_1 l' - gave_1 l) } ∧
      took_1 l' = took_1 l + (if l.line = .take then 1 else 0) ∧ gave_1 l ≤ gave_1 l' := by
  rcases l with ⟨_ | _ | _ | _ | _ | _ | _ | _ | _, i⟩ <;> simp only [reaction_1] at h
  · split at h <;> cases h <;> simp [took_1, gave_1, Loc.past]
  · cases h
    dsimp only
    split <;> simp [took_1, gave_1, Loc.past]
  iterate 3
    · cases h
      simp [took_1, gave_1, Loc.past]
  · cases h
    dsimp only
    split <;> simp [took_1, gave_1, Loc.past]
  iterate 2
    · cases h
      simp [took_1, gave_1, Loc.past]
  · cases h

theorem reaction_2_adds {l l' : Loc Reaction2Line}
    (h : (reaction_2 O l).next stat = some (l', stat')) :
    stat' = { stat with
      num_o := stat.num_o - 2 * (took_2 l' - took_2 l)
      num_o2 := stat.num_o2 + (gave_2 l' - gave_2 l) } ∧
      took_2 l' = took_2 l + (if l.line = .take then 1 else 0) ∧ gave_2 l ≤ gave_2 l' := by
  rcases l with ⟨_ | _ | _ | _ | _ | _ | _ | _ | _ | _ | _, i⟩ <;> simp only [reaction_2] at h
  · split at h <;> cases h <;> simp [took_2, gave_2, Loc.past]
  · cases h
    dsimp only
    split <;> simp [took_2, gave_2, Loc.past]
  iterate 3
    · cases h
      simp [took_2, gave_2, Loc.past]
  · cases h
    dsimp only
    split <;> simp [took_2, gave_2, Loc.past]
  · cases h
    simp [took_2, gave_2, Loc.past]
  · cases h
    dsimp only
    split <;> simp [took_2, gave_2, Loc.past]
  iterate 2
    · cases h
      simp [took_2, gave_2, Loc.past]
  · cases h

theorem reaction_3_adds {a : Int} {l l' : Loc Reaction3Line}
    (h : (reaction_3 a T l).next stat = some (l', stat')) :
    stat' = { stat with
      num_n2 := stat.num_n2 - (took_n2 l' - took_n2 l)
      num_o2 := stat.num_o2 - 2 * (took_o2 l' - took_o2 l)
      num_no2 := stat.num_no2 + 2 * (gave_no2 l' - gave_no2 l) } ∧
      took_n2 l' = took_n2 l + (if l.line = .take_n2 then 1 else 0) ∧
      took_o2 l' = took_o2 l + (if l.line = .take_o2 then 1 else 0) ∧
      gave_no2 l ≤ gave_no2 l' := by
  rcases l with ⟨_ | _ | _ | _ | _ | _ | _ | _, i⟩ <;> simp only [reaction_3] at h
  · split at h <;> cases h <;> simp [took_n2, took_o2, gave_no2, Loc.past]
  · cases h
    dsimp only
    split <;> simp [took_n2, took_o2, gave_no2, Loc.past]
  iterate 5
    · cases h
      simp [took_n2, took_o2, gave_no2, Loc.past]
  · cases h

theorem reaction_4_adds {b : Int} {l l' : Loc Reaction4Line}
    (h : (reaction_4 b T l).next stat = some (l', stat')) :
    stat' = { stat with
      num_o2 := stat.num_o2 - 3 * (took_4 l' - took_4 l)
      num_o3 := stat.num_o3 + 2 * (gave_4 l' - gave_4 l) } ∧
      took_4 l' = took_4 l + (if l.line = .take then 1 else 0) ∧ gave_4 l ≤ gave_4 l' := by
  rcases l with ⟨_ | _ | _ | _ | _ | _ | _, i⟩ <;> simp only [reaction_4] at h
  · split at h <;> cases h <;> simp [took_4, gave_4, Loc.past]
  · cases h
    dsimp only
    split <;> simp [took_4, gave_4, Loc.past]
  iterate 4
    · cases h
      simp [took_4, gave_4, Loc.past]
  · cases h

theorem Counts.step {locs : ∀ p, L p} {p : Proc} {l : L p} (h : Counts locs stat)
    (hn : ((program N O T).op p (locs p)).next stat = some (l, stat')) :
    Counts (update locs p l) stat' := by
  obtain ⟨h1, h2, h3, h4, h5, h6, h7, h8⟩ := h
  rcases p with _ | _ | _ | _ | _ | _ | _
  · have hsame : stat' = stat := by
      rcases hl : locs .krypton <;> rw [hl] at hn <;> cases hn
      rfl
    subst hsame
    constructor <;> simpa
  · obtain ⟨rfl, hadd⟩ := producer_adds hn
    by_cases hline : (locs .producer_n).line = ProducerLine.add
    · rw [if_pos hline] at hadd ⊢
      constructor <;> simp [Stat.add_n] <;> omega
    · rw [if_neg hline] at hadd ⊢
      constructor <;> simp <;> omega
  · obtain ⟨rfl, hadd⟩ := producer_adds hn
    by_cases hline : (locs .producer_o).line = ProducerLine.add
    · rw [if_pos hline] at hadd ⊢
      constructor <;> simp [Stat.add_o] <;> omega
    · rw [if_neg hline] at hadd ⊢
      constructor <;> simp <;> omega
  · obtain ⟨rfl, _⟩ := reaction_1_adds hn
    constructor <;> simp <;> omega
  · obtain ⟨rfl, _⟩ := reaction_2_adds hn
    constructor <;> simp <;> omega
  · obtain ⟨rfl, _⟩ := reaction_3_adds hn
    constructor <;> simp <;> omega
  · obtain ⟨rfl, _⟩ := reaction_4_adds hn
    constructor <;> simp <;> omega

/-! ## What the processes know -/

/-- What a reaction waits for. -/
def Guard (stat : Stat) : Cond → Prop
  | .c_N2_ready => 2 ≤ stat.num_n
  | .c_O2_ready => 2 ≤ stat.num_o
  | .c_NO2_ready => 1 ≤ stat.num_n2 ∧ 2 ≤ stat.num_o2
  | .c_O3_ready => 3 ≤ stat.num_o2

/-- The one process that waits on a condition. -/
def waiter : Cond → Proc
  | .c_N2_ready => .reaction_1
  | .c_O2_ready => .reaction_2
  | .c_NO2_ready => .reaction_3
  | .c_O3_ready => .reaction_4

/-- The process may have made the guard true, and comes to its signal. -/
def Announces (c : Cond) : ∀ p, L p → Prop
  | .producer_n, l => c = .c_N2_ready ∧ l.line ∈ [ProducerLine.read_n, .read_o, .signal]
  | .producer_o, l => c = .c_O2_ready ∧ l.line ∈ [ProducerLine.read_n, .read_o, .signal]
  | .reaction_1, l => c = .c_NO2_ready ∧ l.line ∈ [Reaction1Line.test_no2, .signal_no2]
  | .reaction_2, l =>
    c = .c_NO2_ready ∧ l.line ∈ [Reaction2Line.test_no2, .signal_no2] ∨
      c = .c_O3_ready ∧ l.line ∈ [Reaction2Line.test_no2, .signal_no2, .test_o3, .signal_o3]
  | .krypton, _ | .reaction_3, _ | .reaction_4, _ => False

/-- What a process that does not sleep on a condition knows. -/
def Knows : ∀ p, L p → Stat → Prop
  | .krypton, _, _ => True
  | .producer_n, l, stat =>
    (l.line = ProducerLine.read_o → l.curr_num_n = stat.num_n) ∧
      (l.line = ProducerLine.signal → Guard stat .c_N2_ready)
  | .producer_o, l, stat => l.line = ProducerLine.signal → Guard stat .c_O2_ready
  | .reaction_1, l, stat =>
    (l.line = Reaction1Line.wait → ¬ Guard stat .c_N2_ready) ∧
      (l.line = Reaction1Line.take → Guard stat .c_N2_ready) ∧
      (l.line = Reaction1Line.signal_no2 → Guard stat .c_NO2_ready)
  | .reaction_2, l, stat =>
    (l.line = Reaction2Line.wait → ¬ Guard stat .c_O2_ready) ∧
      (l.line = Reaction2Line.take → Guard stat .c_O2_ready) ∧
      (l.line = Reaction2Line.signal_no2 → Guard stat .c_NO2_ready) ∧
      (l.line = Reaction2Line.signal_o3 → Guard stat .c_O3_ready)
  | .reaction_3, l, stat =>
    (l.line = Reaction3Line.wait → ¬ Guard stat .c_NO2_ready) ∧
      (l.line = Reaction3Line.take_n2 → Guard stat .c_NO2_ready) ∧
      (l.line = Reaction3Line.take_o2 → 2 ≤ stat.num_o2)
  | .reaction_4, l, stat =>
    (l.line = Reaction4Line.wait → ¬ Guard stat .c_O3_ready) ∧
      (l.line = Reaction4Line.take → Guard stat .c_O3_ready)

/-- The lines to which a process comes with the lock. -/
def entry : ∀ p, L p → Bool
  | .krypton, _ => false
  | .producer_n, l | .producer_o, l => l.line = ProducerLine.add
  | .reaction_1, l => l.line = Reaction1Line.test || l.line = Reaction1Line.take
  | .reaction_2, l => l.line = Reaction2Line.test || l.line = Reaction2Line.take
  | .reaction_3, l => l.line = Reaction3Line.test
  | .reaction_4, l => l.line = Reaction4Line.test

/-- What the lines of one process do to what all processes know. -/
structure Behaves (p : Proc) (op : L p → Op (L p) Stat Cond Sem) : Prop where
  /-- It finds out what it has to know. -/
  learns : ∀ {l x stat stat'}, Knows p l stat → (op l).Goes stat x stat' →
    (∀ c, x.place ≠ some (.cond c)) → Knows p x.loc stat'
  /-- It sleeps where its guard is false. -/
  sleeps : ∀ {l x stat stat' c}, Knows p l stat → (op l).Goes stat x stat' →
    x.place = some (.cond c) → p = waiter c ∧ ¬ Guard stat' c
  inner : ∀ {l x stat stat'}, (op l).Goes stat x stat' →
    inside p x.loc = true → entry p x.loc = false → x = .ready x.loc
  /-- It signals where the guard is true, -/
  signals : ∀ {l l' stat c}, Knows p l stat → op l = .signal c l' → Guard stat c
  /-- and after it has made it true. -/
  announces : ∀ {l l' stat stat' c}, Knows p l stat → (op l).next stat = some (l', stat') →
    p ≠ waiter c → (∀ l'', op l ≠ .signal c l'') → ¬ Guard stat c ∨ Announces c p l →
      ¬ Guard stat' c ∨ Announces c p l'
  num_n : ∀ {l l' stat stat'}, p ≠ .reaction_1 → (op l).next stat = some (l', stat') →
    stat.num_n ≤ stat'.num_n
  num_o : ∀ {l l' stat stat'}, p ≠ .reaction_2 → (op l).next stat = some (l', stat') →
    stat.num_o ≤ stat'.num_o

theorem krypton_behaves : Behaves .krypton krypton where
  learns _ _ _ := trivial
  sleeps := by
    rintro (_ | _) x stat stat' c _ h hx <;> cases h <;> cases hx
  inner := by simp [inside]
  signals := by rintro (_ | _) l' stat c _ h <;> cases h
  announces := by
    rintro (_ | _) l' stat stat' c _ h _ _ hg <;> cases h
    exact hg
  num_n := by
    rintro (_ | _) l' stat stat' _ h <;> cases h
    exact le_rfl
  num_o := by
    rintro (_ | _) l' stat stat' _ h <;> cases h
    exact le_rfl

/-- A producer waits for no condition. -/
theorem producer_runs {add : Stat → Stat} {curr : ProducerLoc → Int} {ready : Cond} {total : Nat}
    {l : ProducerLoc} {x : Point ProducerLoc Cond Sem}
    (h : (producer add curr ready total l).Goes stat x stat') :
    (∀ c, x.place ≠ some (.cond c)) ∧ (inside .producer_n x.loc = true →
      entry .producer_n x.loc = false → x = .ready x.loc) := by
  rcases l with ⟨⟨_ | _ | _ | _ | _ | _ | _, i⟩, n, o⟩ <;> simp only [producer] at h
  · split at h <;> cases h <;> simp [inside, entry]
  all_goals
    cases h
    try simp

theorem producer_n_behaves : Behaves .producer_n (producer_n N) where
  learns := by
    rintro ⟨⟨_ | _ | _ | _ | _ | _ | _, i⟩, n, o⟩ x stat stat' hk h hx <;>
      simp only [producer_n, producer] at h
    · split at h <;> cases h <;> simp [Knows]
    · cases h
      simp [Knows]
    · cases h
      simp [Knows]
    · cases h
      simp only [Knows, Point.loc_ready, Guard]
      have := hk.1 rfl
      dsimp only at this
      split
      · simp
        omega
      · simp
    · cases h
      simp [Knows]
    · cases h
      simp [Knows]
    · cases h
  sleeps _ h hx := absurd hx ((producer_runs h).1 _)
  inner h := (producer_runs h).2
  signals := by
    rintro ⟨⟨_ | _ | _ | _ | _ | _ | _, i⟩, n, o⟩ l' stat c hk h <;>
      simp only [producer_n, producer] at h
    · split at h <;> cases h
    all_goals
      cases h
    exact hk.2 rfl
  announces := by
    rintro ⟨⟨_ | _ | _ | _ | _ | _ | _, i⟩, n, o⟩ l' stat stat' c hk h _ hs hg <;>
      simp only [producer_n, producer] at h hs
    · split at h <;> cases h <;> simpa [Announces] using hg
    · cases h
      cases c <;> simp_all [Announces, Guard, Stat.add_n]
    · cases h
      cases c <;> simp_all [Announces]
    · cases h
      have := hk.1 rfl
      dsimp only at this ⊢
      split
      · cases c <;> simp_all [Announces]
      · cases c <;> simp_all [Announces, Guard]
    · cases h
      cases c <;> simp_all [Announces]
    · cases h
      simpa [Announces] using hg
    · cases h
  num_n := by
    intro l l' stat stat' _ h
    obtain ⟨rfl, _⟩ := producer_adds h
    split <;> simp [Stat.add_n]
  num_o := by
    intro l l' stat stat' _ h
    obtain ⟨rfl, _⟩ := producer_adds h
    split <;> simp [Stat.add_n]

theorem producer_o_behaves : Behaves .producer_o (producer_o O) where
  learns := by
    rintro ⟨⟨_ | _ | _ | _ | _ | _ | _, i⟩, n, o⟩ x stat stat' hk h hx <;>
      simp only [producer_o, producer] at h
    · split at h <;> cases h <;> simp [Knows]
    · cases h
      simp [Knows]
    · cases h
      simp [Knows]
    · cases h
      simp only [Knows, Point.loc_ready, Guard]
      split
      · simp
        omega
      · simp
    · cases h
      simp [Knows]
    · cases h
      simp [Knows]
    · cases h
  sleeps _ h hx := absurd hx ((producer_runs h).1 _)
  inner h := (producer_runs h).2
  signals := by
    rintro ⟨⟨_ | _ | _ | _ | _ | _ | _, i⟩, n, o⟩ l' stat c hk h <;>
      simp only [producer_o, producer] at h
    · split at h <;> cases h
    all_goals
      cases h
    exact hk rfl
  announces := by
    rintro ⟨⟨_ | _ | _ | _ | _ | _ | _, i⟩, n, o⟩ l' stat stat' c hk h _ hs hg <;>
      simp only [producer_o, producer] at h hs
    · split at h <;> cases h <;> simpa [Announces] using hg
    · cases h
      cases c <;> simp_all [Announces, Guard, Stat.add_o]
    · cases h
      cases c <;> simp_all [Announces]
    · cases h
      dsimp only
      split
      · cases c <;> simp_all [Announces]
      · cases c <;> simp_all [Announces, Guard]
    · cases h
      cases c <;> simp_all [Announces]
    · cases h
      simpa [Announces] using hg
    · cases h
  num_n := by
    intro l l' stat stat' _ h
    obtain ⟨rfl, _⟩ := producer_adds h
    split <;> simp [Stat.add_o]
  num_o := by
    intro l l' stat stat' _ h
    obtain ⟨rfl, _⟩ := producer_adds h
    split <;> simp [Stat.add_o]

theorem reaction_1_behaves : Behaves .reaction_1 (reaction_1 N) where
  learns := by
    rintro ⟨_ | _ | _ | _ | _ | _ | _ | _ | _, i⟩ x stat stat' hk h hx <;>
      simp only [reaction_1] at h
    · split at h <;> cases h <;> simp [Knows]
    · cases h
      simp only [Knows, Point.loc_ready, Guard]
      split
      · simp
        omega
      · simp
        omega
    · cases h
      exact absurd rfl (hx _)
    iterate 2
      · cases h
        simp [Knows]
    · cases h
      simp only [Knows, Point.loc_ready, Guard]
      split
      · simp
        omega
      · simp
    iterate 2
      · cases h
        simp [Knows]
    · cases h
  sleeps := by
    rintro ⟨_ | _ | _ | _ | _ | _ | _ | _ | _, i⟩ x stat stat' c hk h hx <;>
      simp only [reaction_1] at h
    · split at h <;> cases h <;> cases hx
    all_goals
      cases h
      try cases hx
    exact ⟨rfl, hk.1 rfl⟩
  inner := by
    rintro ⟨_ | _ | _ | _ | _ | _ | _ | _ | _, i⟩ x stat stat' h <;>
      simp only [reaction_1] at h
    · split at h <;> cases h <;> simp [inside, entry]
    all_goals
      cases h
      try simp [entry]
  signals := by
    rintro ⟨_ | _ | _ | _ | _ | _ | _ | _ | _, i⟩ l' stat c hk h <;>
      simp only [reaction_1] at h
    · split at h <;> cases h
    all_goals
      cases h
    exact hk.2.2 rfl
  announces := by
    rintro ⟨_ | _ | _ | _ | _ | _ | _ | _ | _, i⟩ l' stat stat' c hk h hc hs hg <;>
      simp only [reaction_1] at h hs
    · split at h <;> cases h <;> simpa [Announces] using hg
    · cases h
      dsimp only
      split <;> simpa [Announces] using hg
    · cases h
      simpa [Announces] using hg
    · cases h
      cases c <;> simp_all [Announces, Guard, waiter]
    · cases h
      cases c <;> simp_all [Announces, Guard]
    · cases h
      dsimp only
      split
      · cases c <;> simp_all [Announces]
      · cases c <;> simp_all [Announces, Guard]
        all_goals omega
    · cases h
      cases c <;> simp_all [Announces]
    · cases h
      simpa [Announces] using hg
    · cases h
  num_n h := absurd rfl h
  num_o := by
    intro l l' stat stat' _ h
    obtain ⟨rfl, _⟩ := reaction_1_adds h
    exact le_rfl

theorem reaction_2_behaves : Behaves .reaction_2 (reaction_2 O) where
  learns := by
    rintro ⟨_ | _ | _ | _ | _ | _ | _ | _ | _ | _ | _, i⟩ x stat stat' hk h hx <;>
      simp only [reaction_2] at h
    · split at h <;> cases h <;> simp [Knows]
    · cases h
      simp only [Knows, Point.loc_ready, Guard]
      split
      · simp
        omega
      · simp
        omega
    · cases h
      exact absurd rfl (hx _)
    iterate 2
      · cases h
        simp [Knows]
    · cases h
      simp only [Knows, Point.loc_ready, Guard]
      split
      · simp
        omega
      · simp
    · cases h
      simp [Knows]
    · cases h
      simp only [Knows, Point.loc_ready, Guard]
      split
      · simp
        omega
      · simp
    iterate 2
      · cases h
        simp [Knows]
    · cases h
  sleeps := by
    rintro ⟨_ | _ | _ | _ | _ | _ | _ | _ | _ | _ | _, i⟩ x stat stat' c hk h hx <;>
      simp only [reaction_2] at h
    · split at h <;> cases h <;> cases hx
    all_goals
      cases h
      try cases hx
    exact ⟨rfl, hk.1 rfl⟩
  inner := by
    rintro ⟨_ | _ | _ | _ | _ | _ | _ | _ | _ | _ | _, i⟩ x stat stat' h <;>
      simp only [reaction_2] at h
    · split at h <;> cases h <;> simp [inside, entry]
    all_goals
      cases h
      try simp [entry]
  signals := by
    rintro ⟨_ | _ | _ | _ | _ | _ | _ | _ | _ | _ | _, i⟩ l' stat c hk h <;>
      simp only [reaction_2] at h
    · split at h <;> cases h
    all_goals
      cases h
    · exact hk.2.2.1 rfl
    · exact hk.2.2.2 rfl
  announces := by
    rintro ⟨_ | _ | _ | _ | _ | _ | _ | _ | _ | _ | _, i⟩ l' stat stat' c hk h hc hs hg <;>
      simp only [reaction_2] at h hs
    · split at h <;> cases h <;> simpa [Announces] using hg
    · cases h
      dsimp only
      split <;> simpa [Announces] using hg
    · cases h
      simpa [Announces] using hg
    · cases h
      cases c <;> simp_all [Announces, Guard, waiter]
    · cases h
      cases c <;> simp_all [Announces, Guard]
    · cases h
      dsimp only
      split
      · cases c <;> simp_all [Announces]
      · cases c <;> simp_all [Announces, Guard]
        all_goals omega
    · cases h
      cases c <;> simp_all [Announces]
    · cases h
      dsimp only
      split
      · cases c <;> simp_all [Announces]
      · cases c <;> simp_all [Announces, Guard]
        all_goals omega
    · cases h
      cases c <;> simp_all [Announces]
    · cases h
      simpa [Announces] using hg
    · cases h
  num_n := by
    intro l l' stat stat' _ h
    obtain ⟨rfl, _⟩ := reaction_2_adds h
    exact le_rfl
  num_o h := absurd rfl h

theorem reaction_3_behaves {a : Int} : Behaves .reaction_3 (reaction_3 a T) where
  learns := by
    rintro ⟨_ | _ | _ | _ | _ | _ | _ | _, i⟩ x stat stat' hk h hx <;>
      simp only [reaction_3] at h
    · split at h <;> cases h <;> simp [Knows]
    · cases h
      simp only [Knows, Point.loc_ready, Guard]
      split
      · simp
        omega
      · simp
        omega
    · cases h
      exact absurd rfl (hx _)
    · cases h
      have := (hk.2.1 rfl).2
      simpa [Knows] using this
    iterate 3
      · cases h
        simp [Knows]
    · cases h
  sleeps := by
    rintro ⟨_ | _ | _ | _ | _ | _ | _ | _, i⟩ x stat stat' c hk h hx <;>
      simp only [reaction_3] at h
    · split at h <;> cases h <;> cases hx
    all_goals
      cases h
      try cases hx
    exact ⟨rfl, hk.1 rfl⟩
  inner := by
    rintro ⟨_ | _ | _ | _ | _ | _ | _ | _, i⟩ x stat stat' h <;>
      simp only [reaction_3] at h
    · split at h <;> cases h <;> simp [inside, entry]
    all_goals
      cases h
      try simp [entry]
  signals := by
    rintro ⟨_ | _ | _ | _ | _ | _ | _ | _, i⟩ l' stat c hk h <;>
      simp only [reaction_3] at h
    · split at h <;> cases h
    all_goals cases h
  announces := by
    intro l l' stat stat' c hk h hc _ hg
    replace hg : ¬ Guard stat c := hg.resolve_right id
    refine .inl ?_
    rcases l with ⟨_ | _ | _ | _ | _ | _ | _ | _, i⟩ <;> simp only [reaction_3] at h
    · split at h <;> cases h <;> exact hg
    iterate 2
      · cases h
        exact hg
    iterate 2
      · cases h
        cases c <;> simp_all [Guard, waiter]
        all_goals omega
    iterate 2
      · cases h
        exact hg
    · cases h
  num_n := by
    intro l l' stat stat' _ h
    obtain ⟨rfl, _⟩ := reaction_3_adds h
    exact le_rfl
  num_o := by
    intro l l' stat stat' _ h
    obtain ⟨rfl, _⟩ := reaction_3_adds h
    exact le_rfl

theorem reaction_4_behaves {b : Int} : Behaves .reaction_4 (reaction_4 b T) where
  learns := by
    rintro ⟨_ | _ | _ | _ | _ | _ | _, i⟩ x stat stat' hk h hx <;>
      simp only [reaction_4] at h
    · split at h <;> cases h <;> simp [Knows]
    · cases h
      simp only [Knows, Point.loc_ready, Guard]
      split
      · simp
        omega
      · simp
        omega
    · cases h
      exact absurd rfl (hx _)
    iterate 3
      · cases h
        simp [Knows]
    · cases h
  sleeps := by
    rintro ⟨_ | _ | _ | _ | _ | _ | _, i⟩ x stat stat' c hk h hx <;>
      simp only [reaction_4] at h
    · split at h <;> cases h <;> cases hx
    all_goals
      cases h
      try cases hx
    exact ⟨rfl, hk.1 rfl⟩
  inner := by
    rintro ⟨_ | _ | _ | _ | _ | _ | _, i⟩ x stat stat' h <;>
      simp only [reaction_4] at h
    · split at h <;> cases h <;> simp [inside, entry]
    all_goals
      cases h
      try simp [entry]
  signals := by
    rintro ⟨_ | _ | _ | _ | _ | _ | _, i⟩ l' stat c hk h <;>
      simp only [reaction_4] at h
    · split at h <;> cases h
    all_goals cases h
  announces := by
    intro l l' stat stat' c hk h hc _ hg
    replace hg : ¬ Guard stat c := hg.resolve_right id
    refine .inl ?_
    rcases l with ⟨_ | _ | _ | _ | _ | _ | _, i⟩ <;> simp only [reaction_4] at h
    · split at h <;> cases h <;> exact hg
    iterate 2
      · cases h
        exact hg
    · cases h
      cases c <;> simp_all [Guard, waiter]
      all_goals omega
    iterate 2
      · cases h
        exact hg
    · cases h
  num_n := by
    intro l l' stat stat' _ h
    obtain ⟨rfl, _⟩ := reaction_4_adds h
    exact le_rfl
  num_o := by
    intro l l' stat stat' _ h
    obtain ⟨rfl, _⟩ := reaction_4_adds h
    exact le_rfl

theorem behaves (N O : Nat) (T : Int) (p : Proc) : Behaves p ((program N O T).op p) := by
  cases p with
  | krypton => exact krypton_behaves
  | producer_n => exact producer_n_behaves
  | producer_o => exact producer_o_behaves
  | reaction_1 => exact reaction_1_behaves
  | reaction_2 => exact reaction_2_behaves
  | reaction_3 => exact reaction_3_behaves
  | reaction_4 => exact reaction_4_behaves

end dlxos.q5
