-- What the simulation of the atmosphere in `q5` keeps, whatever the order in
-- which its processes run: no reaction takes what is not there, no atom is lost,
-- no process waits for ever, and the result is always the same.
import DlxOs.Reactions

namespace dlxos.q5

open Function monitor

variable {N O : Nat} {T : Int} {s t : State Proc L Stat Cond Sem} {p q : Proc}
  {stat stat' : Stat} {locs : ∀ p, L p}

/-! ## The outline -/

/-- What is true while a process is at a point. -/
structure Asserts (p : Proc) (x : Point (L p) Cond Sem) (locs : ∀ p, L p) (stat : Stat) :
    Prop where
  knows : (∀ c, x.place ≠ some (.cond c)) → Knows p x.loc stat
  sleeps : ∀ c, x.place = some (.cond c) →
    p = waiter c ∧ (¬ Guard stat c ∨ ∃ r, Announces c r (locs r))
  /-- It comes with the lock to the first line of its section. -/
  inner : inside p x.loc = true → entry p x.loc = false → x = .ready x.loc

theorem Asserts.ready {l : L p} (h : Asserts p (.ready l) locs stat) : Knows p l stat :=
  h.knows (by simp)

/-- A reaction that comes back from its wait knows what the signal said. -/
theorem knows_entry {c : Cond} {l : L (waiter c)} (he : entry (waiter c) l = true)
    (hg : Guard stat c) : Knows (waiter c) l stat := by
  cases c <;> rcases l with ⟨_ | _, i⟩ <;> simp_all [waiter, entry, Knows]

theorem knows_outside {l : L p} (h : inside p l = false) : Knows p l stat := by
  cases p with
  | krypton => trivial
  | producer_n | producer_o =>
    rcases l with ⟨⟨_ | _ | _ | _ | _ | _ | _, i⟩, n, o⟩ <;> simp_all [inside, Knows]
  | reaction_1 => rcases l with ⟨_ | _, i⟩ <;> simp_all [inside, Knows]
  | reaction_2 => rcases l with ⟨_ | _, i⟩ <;> simp_all [inside, Knows]
  | reaction_3 => rcases l with ⟨_ | _, i⟩ <;> simp_all [inside, Knows]
  | reaction_4 => rcases l with ⟨_ | _, i⟩ <;> simp_all [inside, Knows]

/-- Only reaction 1 takes atoms of N, and only reaction 2 takes atoms of O. -/
theorem Knows.entry {op : L p → Op (L p) Stat Cond Sem} {lq : L q} {l l' : L p}
    (h : Knows q lq stat) (he : entry q lq = true) (hb : Behaves p op) (hq : q ≠ p)
    (hn : (op l).next stat = some (l', stat')) : Knows q lq stat' := by
  cases q with
  | krypton => trivial
  | producer_n | producer_o =>
    have hline : lq.line = ProducerLine.add := by simpa [q5.entry] using he
    simp [Knows, hline]
  | reaction_1 =>
    have hle := hb.num_n (Ne.symm hq) hn
    have hg := h.2.1
    rcases lq with ⟨_ | _, i⟩ <;> simp_all [q5.entry, Knows, Guard]
    all_goals omega
  | reaction_2 =>
    have hle := hb.num_o (Ne.symm hq) hn
    have hg := h.2.1
    rcases lq with ⟨_ | _, i⟩ <;> simp_all [q5.entry, Knows, Guard]
    all_goals omega
  | reaction_3 =>
    have hline : lq.line = Reaction3Line.test := by simpa [q5.entry] using he
    simp [Knows, hline]
  | reaction_4 =>
    have hline : lq.line = Reaction4Line.test := by simpa [q5.entry] using he
    simp [Knows, hline]

theorem outline (N O : Nat) (T : Int) : Outline (program N O T) (fun _ _ => True) Asserts where
  start p := by
    refine ⟨fun _ => knows_outside ((program N O T).outside p), by simp, fun hin => ?_⟩
    cases hin.symm.trans ((program N O T).outside p)
  own := by
    intro p locs stat x stat' _ hA hg
    refine ⟨(behaves N O T p).learns hA.ready hg, fun c hx => ?_, (behaves N O T p).inner hg⟩
    obtain ⟨hp, hguard⟩ := (behaves N O T p).sleeps hA.ready hg hx
    exact ⟨hp, .inl hguard⟩
  again := by
    intro p locs stat _ hA
    have hinner : inside p (locs p) = true → entry p (locs p) = false → False := by
      intro hin he
      cases hA.inner hin he
    refine ⟨⟨fun _ => hA.knows (by simp), by simp, fun hin he => (hinner hin he).elim⟩,
      ⟨fun _ => hA.knows (by simp), by simp, fun hin he => (hinner hin he).elim⟩⟩
  woke := by
    intro p q locs stat l stat' w hq _ hp hA hw hn
    obtain rfl := hw.next hn
    have hinner : inside q (locs q) = true → entry q (locs q) = false → False := by
      intro hin he
      cases hA.inner hin he
    refine ⟨fun _ => ?_, by simp, fun hin he => ?_⟩
    · rw [Point.loc_wake, Point.loc_asleep]
      rcases w with _ | c | m
      · exact hA.knows (by simp)
      · obtain ⟨rfl, _⟩ := hA.sleeps c rfl
        obtain ⟨l', hop⟩ := hw.signal
        have hguard := (behaves N O T p).signals hp.ready hop
        cases hin : inside (waiter c) (locs (waiter c)) with
        | false => exact knows_outside hin
        | true =>
          cases he : entry (waiter c) (locs (waiter c)) with
          | false => exact (hinner hin he).elim
          | true => exact knows_entry he hguard
      · exact hA.knows (by simp)
    · rw [Point.loc_wake, Point.loc_asleep] at hin he
      exact (hinner hin he).elim
  frame := by
    intro p q x locs stat l stat' hq _ hp hA hx hn hin hsig
    refine ⟨fun hplace => ?_, fun c hplace => ?_, hA.inner⟩
    · have hk := hA.knows hplace
      cases hi : inside q x.loc with
      | false => exact knows_outside hi
      | true =>
        cases he : entry q x.loc with
        | true => exact hk.entry he (behaves N O T p) hq hn
        | false =>
          -- the process has the lock, so the other one leaves the counters alone
          have hready := hA.inner hi he
          rw [hx] at hready hi
          cases hpi : inside p (locs p) with
          | true => exact absurd hready (hin hpi hi)
          | false => exact next_outside hn hpi ▸ hk
    · obtain ⟨hw, hguard⟩ := hA.sleeps c hplace
      have hnosig : ∀ l'', (program N O T).op p (locs p) ≠ .signal c l'' := by
        intro l'' hop
        have hasleep := point_of_place hplace
        rw [hx] at hasleep
        obtain ⟨r, hr, hAr⟩ := hsig c l'' hasleep hop
        exact hr ((hAr.sleeps c rfl).1.trans hw.symm)
      have hannounces := (behaves N O T p).announces hp.ready hn (hw ▸ Ne.symm hq) hnosig
      refine ⟨hw, ?_⟩
      rcases hguard with hguard | ⟨r, hr⟩
      · rcases hannounces (.inl hguard) with hguard | hp'
        · exact .inl hguard
        · exact .inr ⟨p, by rwa [update_self]⟩
      · by_cases hrp : r = p
        · subst hrp
          rcases hannounces (.inr hr) with hguard | hp'
          · exact .inl hguard
          · exact .inr ⟨r, by rwa [update_self]⟩
        · exact .inr ⟨r, by rwa [update_of_ne hrp]⟩

theorem asserts (h : (program N O T).Reachable s) (p : Proc) :
    Asserts p (s.pc p) s.locs s.shared.mem :=
  (outline N O T).holds (fun _ _ => trivial) h p

theorem counts (h : (program N O T).Reachable s) : Counts s.locs s.shared.mem := by
  refine data_rule (g := program N O T) (J := Counts) ?_ (fun _ _ _ _ _ h hn => h.step hn) h
  constructor <;> rfl

/-! ## Conservation -/

structure NonNeg (stat : Stat) : Prop where
  num_n : 0 ≤ stat.num_n
  num_o : 0 ≤ stat.num_o
  num_n2 : 0 ≤ stat.num_n2
  num_o2 : 0 ≤ stat.num_o2
  num_no2 : 0 ≤ stat.num_no2
  num_o3 : 0 ≤ stat.num_o3

/-- The counters hold the atoms that were produced. -/
structure Conserved (stat : Stat) : Prop where
  nonneg : NonNeg stat
  n_atoms : stat.num_n + 2 * stat.num_n2 + stat.num_no2 = stat.produced_n
  o_atoms : stat.num_o + 2 * stat.num_o2 + 2 * stat.num_no2 + 3 * stat.num_o3 = stat.produced_o

/-- A reaction that comes to take its inputs finds them. -/
def InputsPresent : ∀ p, L p → Stat → Prop
  | .krypton, _, _ | .producer_n, _, _ | .producer_o, _, _ => True
  | .reaction_1, l, stat => l.line = Reaction1Line.take → 2 ≤ stat.num_n
  | .reaction_2, l, stat => l.line = Reaction2Line.take → 2 ≤ stat.num_o
  | .reaction_3, l, stat =>
    (l.line = Reaction3Line.take_n2 → 1 ≤ stat.num_n2 ∧ 2 ≤ stat.num_o2) ∧
      (l.line = Reaction3Line.take_o2 → 2 ≤ stat.num_o2)
  | .reaction_4, l, stat => l.line = Reaction4Line.take → 3 ≤ stat.num_o2

theorem Knows.inputs {l : L p} (h : Knows p l stat) : InputsPresent p l stat := by
  cases p with
  | krypton | producer_n | producer_o => trivial
  | reaction_1 => exact h.2.1
  | reaction_2 => exact h.2.1
  | reaction_3 => exact h.2
  | reaction_4 => exact h.2

/-- The reaction has taken its inputs, but has not given all of its outputs. -/
def Midway : ∀ p, L p → Prop
  | .krypton, _ | .producer_n, _ | .producer_o, _ => False
  | .reaction_1, l => l.line = Reaction1Line.put
  | .reaction_2, l => l.line = Reaction2Line.put
  | .reaction_3, l => l.line = Reaction3Line.take_o2 ∨ l.line = Reaction3Line.put
  | .reaction_4, l => l.line = Reaction4Line.put

theorem Midway.inside {l : L p} (h : Midway p l) : inside p l = true ∧ entry p l = false := by
  cases p with
  | krypton | producer_n | producer_o => cases h
  | reaction_1 | reaction_2 | reaction_4 =>
    unfold Midway at h
    simp [q5.inside, entry, h]
  | reaction_3 =>
    rcases h with h | h <;> simp [q5.inside, entry, h]

theorem Midway.ready (h : (program N O T).Reachable s) (hm : Midway p (s.locs p)) :
    s.pc p = .ready (s.locs p) :=
  (asserts h p).inner hm.inside.1 hm.inside.2

/-- No step makes a counter negative. -/
theorem NonNeg.step {l l' : L p} (h : NonNeg stat) (hk : Knows p l stat)
    (hn : ((program N O T).op p l).next stat = some (l', stat')) : NonNeg stat' := by
  have hin := hk.inputs
  obtain ⟨h1, h2, h3, h4, h5, h6⟩ := h
  cases p with
  | krypton =>
    rcases l with _ | _ <;> cases hn
    exact ⟨h1, h2, h3, h4, h5, h6⟩
  | producer_n =>
    obtain ⟨rfl, _⟩ := producer_adds hn
    split
    · exact ⟨by simp only [Stat.add_n]; omega, h2, h3, h4, h5, h6⟩
    · exact ⟨h1, h2, h3, h4, h5, h6⟩
  | producer_o =>
    obtain ⟨rfl, _⟩ := producer_adds hn
    split
    · exact ⟨h1, by simp only [Stat.add_o]; omega, h3, h4, h5, h6⟩
    · exact ⟨h1, h2, h3, h4, h5, h6⟩
  | reaction_1 =>
    obtain ⟨rfl, htake, hgive⟩ := reaction_1_adds hn
    refine ⟨?_, h2, ?_, h4, h5, h6⟩
    · split at htake <;> grind [InputsPresent]
    · dsimp only
      omega
  | reaction_2 =>
    obtain ⟨rfl, htake, hgive⟩ := reaction_2_adds hn
    refine ⟨h1, ?_, h3, ?_, h5, h6⟩
    · split at htake <;> grind [InputsPresent]
    · dsimp only
      omega
  | reaction_3 =>
    obtain ⟨rfl, htake, htake2, hgive⟩ := reaction_3_adds hn
    refine ⟨h1, h2, ?_, ?_, ?_, h6⟩
    · split at htake <;> grind [InputsPresent]
    · split at htake2 <;> grind [InputsPresent]
    · dsimp only
      omega
  | reaction_4 =>
    obtain ⟨rfl, htake, hgive⟩ := reaction_4_adds hn
    refine ⟨h1, h2, h3, ?_, h5, ?_⟩
    · split at htake <;> grind [InputsPresent]
    · dsimp only
      omega

theorem nonneg (h : (program N O T).Reachable s) : NonNeg s.shared.mem := by
  obtain ⟨tr, hr⟩ := h
  refine (hr.invariant (I := fun s => (program N O T).Reachable s ∧ NonNeg s.shared.mem) ?_
    ⟨.init, ?_⟩).2
  · rintro s p t ⟨hreach, hnn⟩ hs
    refine ⟨hreach.step hs, ?_⟩
    rcases step_data hs with ⟨_, hmem⟩ | ⟨l, v, hpc, hnext, _, rfl⟩
    · rw [hmem]
      exact hnn
    · exact hnn.step (hpc ▸ asserts hreach p).ready hnext
  · constructor <;> exact le_rfl

/-- While no reaction is midway, all atoms are counted. -/
theorem conserved (h : (program N O T).Reachable s) (hm : ∀ p, ¬ Midway p (s.locs p)) :
    Conserved s.shared.mem := by
  obtain ⟨h1, h2, h3, h4, h5, h6, h7, h8⟩ := counts h
  have hr1 : took_1 (s.locs .reaction_1) = gave_1 (s.locs .reaction_1) := by
    have hline : (s.locs .reaction_1).line ≠ Reaction1Line.put := hm .reaction_1
    simp [took_1, gave_1, Loc.past, hline]
  have hr2 : took_2 (s.locs .reaction_2) = gave_2 (s.locs .reaction_2) := by
    have hline : (s.locs .reaction_2).line ≠ Reaction2Line.put := hm .reaction_2
    simp [took_2, gave_2, Loc.past, hline]
  have hr3 : took_n2 (s.locs .reaction_3) = gave_no2 (s.locs .reaction_3) ∧
      took_o2 (s.locs .reaction_3) = gave_no2 (s.locs .reaction_3) := by
    obtain ⟨hline, hline'⟩ := not_or.mp (hm .reaction_3)
    simp [took_n2, took_o2, gave_no2, Loc.past, hline, hline']
  have hr4 : took_4 (s.locs .reaction_4) = gave_4 (s.locs .reaction_4) := by
    have hline : (s.locs .reaction_4).line ≠ Reaction4Line.put := hm .reaction_4
    simp [took_4, gave_4, Loc.past, hline]
  refine ⟨nonneg h, ?_, ?_⟩ <;> omega

/-- The process runs the operation that ends a critical section: it releases
the lock, or waits. -/
def EndsSection (g : Program Proc L Stat Cond Sem) (s : State Proc L Stat Cond Sem) (p : Proc) :
    Prop :=
  ∃ l, s.pc p = .ready l ∧ ((∃ l', g.op p l = .release l') ∨ ∃ c l', g.op p l = .wait c l')

theorem EndsSection.not_midway (h : (program N O T).Reachable s)
    (he : EndsSection (program N O T) s p) (hs : (program N O T).Step s p t) :
    ∀ q, ¬ Midway q (t.locs q) := by
  obtain ⟨l, hpc, hop⟩ := he
  have hobeys := (program N O T).obeys p l
  have hown : s.shared.lock.owner = some p := by
    refine (h.ok.owner p).mpr ⟨l, hpc, ?_⟩
    rcases hop with ⟨l', hop⟩ | ⟨c, l', hop⟩ <;> rw [hop] at hobeys <;> exact hobeys.1
  intro q hm
  rcases step_cases hs with ⟨e, _, heff, rfl⟩ | ⟨hw, _⟩
  · by_cases hq : q = p
    · subst hq
      have hready := hm.ready (h.step hs)
      have hin := hm.inside.1
      rw [locs_ready hpc] at heff
      rw [State.after_self] at hready
      have hgoes := effect_goes heff
      rw [locs_after, update_self] at hready hin
      generalize e.point = x, e.shared.mem = v at hgoes hready hin
      rcases hop with ⟨l', hop⟩ | ⟨c, l', hop⟩
      · rw [hop] at hgoes hobeys
        cases hgoes
        cases hin.symm.trans hobeys.2
      · rw [hop] at hgoes
        cases hgoes
        cases hready
    · rw [locs_after, update_of_ne hq] at hm
      have hq' := (h.ok.owner q).mpr ⟨_, hm.ready h, hm.inside.1⟩
      exact hq (Option.some.inj (hq'.symm.trans hown))
  · cases hpc.symm.trans hw

/-- Outside of the critical sections and at the end of each of them the atoms
are conserved, and the reactions find their inputs. -/
theorem atoms_are_conserved (N O : Nat) (T : Int) {s : State Proc L Stat Cond Sem}
    (h : (program N O T).Reachable s) :
    ((∀ p l, s.pc p = .ready l → inside p l = false) → Conserved s.shared.mem) ∧
      (∀ p t, EndsSection (program N O T) s p → (program N O T).Step s p t →
        Conserved t.shared.mem) ∧
      (∀ p l, s.pc p = .ready l → InputsPresent p l s.shared.mem) ∧
      NonNeg s.shared.mem := by
  refine ⟨fun hout => conserved h fun p hm => ?_, fun p t he hs => ?_, fun p l hpc => ?_, nonneg h⟩
  · have hin := hm.inside.1
    rw [hout p _ (hm.ready h)] at hin
    cases hin
  · exact conserved (h.step hs) (he.not_midway h hs)
  · exact (hpc ▸ asserts h p).ready.inputs

/-! ## The end of the simulation -/

/-- What a loop of `total` turns keeps. -/
structure Loc.Within {Line : Type} (loop done : Line) (total : Int) (l : Loc Line) : Prop where
  le : l.i ≤ total
  lt : l.line ≠ loop → l.line ≠ done → l.i < total
  ge : l.line = done → total ≤ l.i

section Within

variable {Line : Type} {loop done : Line} {total : Int} {l : Loc Line}

theorem Loc.Within.start (hne : loop ≠ done) (h : 0 ≤ total) :
    Loc.Within loop done total ⟨loop, 0⟩ :=
  ⟨h, fun hl => absurd rfl hl, fun hd => absurd hd hne⟩

variable [DecidableEq Line] {lines : List Line}

theorem Loc.Within.past_le (h : l.Within loop done total) (hloop : loop ∉ lines)
    (hdone : done ∉ lines) : l.past lines ≤ total := by
  unfold Loc.past
  split
  · rename_i hl
    have := h.lt (fun he => hloop (he ▸ hl)) (fun he => hdone (he ▸ hl))
    omega
  · have := h.le
    omega

theorem Loc.Within.past_lt (h : l.Within loop done total) (hloop : l.line ≠ loop)
    (hdone : l.line ≠ done) (hl : l.line ∉ lines) : l.past lines < total := by
  rw [Loc.past, if_neg hl]
  have := h.lt hloop hdone
  omega

theorem Loc.Within.past_done (h : l.Within loop done total) (hl : l.line = done)
    (hdone : done ∉ lines) : l.past lines = total := by
  rw [Loc.past, if_neg (hl ▸ hdone)]
  have hle := h.le
  have hge := h.ge hl
  omega

end Within

/-- How many turns each process has. -/
def Turns (N O : Nat) (T : Int) : ∀ p, L p → Prop
  | .krypton, _ => True
  | .producer_n, l => l.toLoc.Within .loop .done N
  | .producer_o, l => l.toLoc.Within .loop .done O
  | .reaction_1, l => l.Within .loop .done (N / 2 : Nat)
  | .reaction_2, l => l.Within .loop .done (O / 2 : Nat)
  | .reaction_3, l => l.Within .loop .done (estimate N O T).est_num_no2
  | .reaction_4, l => l.Within .loop .done (estimate N O T).est_num_o3

theorem producer_turns {add : Stat → Stat} {curr : ProducerLoc → Int} {ready : Cond} {total : Nat}
    {l l' : ProducerLoc} (h : l.toLoc.Within .loop .done total)
    (hn : (producer add curr ready total l).next stat = some (l', stat')) :
    l'.toLoc.Within .loop .done total := by
  obtain ⟨hle, hlt, -⟩ := h
  rcases l with ⟨⟨_ | _ | _ | _ | _ | _ | _, i⟩, n, o⟩ <;> simp only [producer] at hn
  · split at hn <;> cases hn <;> constructor <;> simp_all
  iterate 2
    · cases hn
      constructor <;> simp_all
  · cases hn
    dsimp only
    split <;> constructor <;> simp_all
  · cases hn
    constructor <;> simp_all
  · cases hn
    constructor <;> simp_all
  · cases hn

theorem reaction_1_turns {l l' : Loc Reaction1Line} (h : l.Within .loop .done (N / 2 : Nat))
    (hn : (reaction_1 N l).next stat = some (l', stat')) :
    l'.Within .loop .done (N / 2 : Nat) := by
  obtain ⟨hle, hlt, -⟩ := h
  rcases l with ⟨_ | _ | _ | _ | _ | _ | _ | _ | _, i⟩ <;> simp only [reaction_1] at hn
  · split at hn <;> cases hn <;> constructor <;> simp_all <;> omega
  · cases hn
    dsimp only
    split <;> constructor <;> simp_all
  iterate 3
    · cases hn
      constructor <;> simp_all
  · cases hn
    dsimp only
    split <;> constructor <;> simp_all
  · cases hn
    constructor <;> simp_all
  · cases hn
    constructor <;> simp_all
  · cases hn

theorem reaction_2_turns {l l' : Loc Reaction2Line} (h : l.Within .loop .done (O / 2 : Nat))
    (hn : (reaction_2 O l).next stat = some (l', stat')) :
    l'.Within .loop .done (O / 2 : Nat) := by
  obtain ⟨hle, hlt, -⟩ := h
  rcases l with ⟨_ | _ | _ | _ | _ | _ | _ | _ | _ | _ | _, i⟩ <;> simp only [reaction_2] at hn
  · split at hn <;> cases hn <;> constructor <;> simp_all <;> omega
  · cases hn
    dsimp only
    split <;> constructor <;> simp_all
  iterate 3
    · cases hn
      constructor <;> simp_all
  · cases hn
    dsimp only
    split <;> constructor <;> simp_all
  · cases hn
    constructor <;> simp_all
  · cases hn
    dsimp only
    split <;> constructor <;> simp_all
  · cases hn
    constructor <;> simp_all
  · cases hn
    constructor <;> simp_all
  · cases hn

/-- The temperature does not end the loop before its time. -/
theorem reaction_3_turns {a : Int} {l l' : Loc Reaction3Line} (h : l.Within .loop .done a)
    (hhot : 120 < T → a = 0) (hn : (reaction_3 a T l).next stat = some (l', stat')) :
    l'.Within .loop .done a := by
  obtain ⟨hle, hlt, -⟩ := h
  rcases l with ⟨_ | _ | _ | _ | _ | _ | _ | _, i⟩ <;> simp only [reaction_3] at hn
  · split at hn <;> cases hn <;> constructor <;> simp_all
    all_goals omega
  · cases hn
    dsimp only
    split <;> constructor <;> simp_all
  iterate 4
    · cases hn
      constructor <;> simp_all
  · cases hn
    constructor <;> simp_all
  · cases hn

theorem reaction_4_turns {b : Int} {l l' : Loc Reaction4Line} (h : l.Within .loop .done b)
    (hcold : T < 60 → b = 0) (hn : (reaction_4 b T l).next stat = some (l', stat')) :
    l'.Within .loop .done b := by
  obtain ⟨hle, hlt, -⟩ := h
  rcases l with ⟨_ | _ | _ | _ | _ | _ | _, i⟩ <;> simp only [reaction_4] at hn
  · split at hn <;> cases hn <;> constructor <;> simp_all
    all_goals omega
  · cases hn
    dsimp only
    split <;> constructor <;> simp_all
  iterate 3
    · cases hn
      constructor <;> simp_all
  · cases hn
    constructor <;> simp_all
  · cases hn

theorem turns (h : (program N O T).Reachable s) (p : Proc) : Turns N O T p (s.locs p) := by
  have hfits := estimate_fits N O T
  refine loc_rule (g := program N O T) (S := Turns N O T) ?_ ?_ h p
  · rintro (_ | _ | _ | _ | _ | _ | _)
    · trivial
    · exact .start nofun (Int.natCast_nonneg _)
    · exact .start nofun (Int.natCast_nonneg _)
    · exact .start nofun (Int.natCast_nonneg _)
    · exact .start nofun (Int.natCast_nonneg _)
    · exact .start nofun hfits.no2_nonneg
    · exact .start nofun hfits.o3_nonneg
  · rintro (_ | _ | _ | _ | _ | _ | _) l stat l' stat' hl hn
    · trivial
    · exact producer_turns hl hn
    · exact producer_turns hl hn
    · exact reaction_1_turns hl hn
    · exact reaction_2_turns hl hn
    · exact reaction_3_turns hl hfits.hot hn
    · exact reaction_4_turns hl hfits.cold hn

/-- The program has come to its end. -/
def AtEnd : ∀ p, L p → Prop
  | .krypton, l => l = KryptonLine.done
  | .producer_n, l | .producer_o, l => l.line = ProducerLine.done
  | .reaction_1, l => l.line = Reaction1Line.done
  | .reaction_2, l => l.line = Reaction2Line.done
  | .reaction_3, l => l.line = Reaction3Line.done
  | .reaction_4, l => l.line = Reaction4Line.done

theorem Finished.atEnd (h : (program N O T).Finished s p) : AtEnd p (s.locs p) := by
  obtain ⟨l, hpc, hop⟩ := h
  rw [locs_ready hpc]
  cases p with
  | krypton =>
    rcases l with _ | _ <;> cases hop
    rfl
  | producer_n | producer_o =>
    rcases l with ⟨⟨_ | _ | _ | _ | _ | _ | _, i⟩, n, o⟩ <;>
      simp only [program, producer_n, producer_o, producer] at hop
    · split at hop <;> cases hop
    all_goals first | rfl | cases hop
  | reaction_1 =>
    rcases l with ⟨_ | _, i⟩ <;> simp only [program, reaction_1] at hop
    · split at hop <;> cases hop
    all_goals first | rfl | cases hop
  | reaction_2 =>
    rcases l with ⟨_ | _, i⟩ <;> simp only [program, reaction_2] at hop
    · split at hop <;> cases hop
    all_goals first | rfl | cases hop
  | reaction_3 =>
    rcases l with ⟨_ | _, i⟩ <;> simp only [program, reaction_3] at hop
    · split at hop <;> cases hop
    all_goals first | rfl | cases hop
  | reaction_4 =>
    rcases l with ⟨_ | _, i⟩ <;> simp only [program, reaction_4] at hop
    · split at hop <;> cases hop
    all_goals first | rfl | cases hop

/-- Only `krypton` waits for a semaphore. -/
theorem waits_for_semaphore {l0 l : L p} {m : Sem}
    (h : ((program N O T).op p l0).Goes stat (.asleep (.sem m) l) stat') : p = .krypton := by
  cases p with
  | krypton => rfl
  | producer_n | producer_o =>
    rcases l0 with ⟨⟨_ | _ | _ | _ | _ | _ | _, i⟩, n, o⟩ <;>
      simp only [program, producer_n, producer_o, producer] at h
    · split at h <;> cases h
    all_goals cases h
  | reaction_1 =>
    rcases l0 with ⟨_ | _, i⟩ <;> simp only [program, reaction_1] at h
    · split at h <;> cases h
    all_goals cases h
  | reaction_2 =>
    rcases l0 with ⟨_ | _, i⟩ <;> simp only [program, reaction_2] at h
    · split at h <;> cases h
    all_goals cases h
  | reaction_3 =>
    rcases l0 with ⟨_ | _, i⟩ <;> simp only [program, reaction_3] at h
    · split at h <;> cases h
    all_goals cases h
  | reaction_4 =>
    rcases l0 with ⟨_ | _, i⟩ <;> simp only [program, reaction_4] at h
    · split at h <;> cases h
    all_goals cases h

theorem Announces.inside {c : Cond} {l : L p} (h : Announces c p l) :
    inside p l = true ∧ entry p l = false := by
  cases p with
  | krypton | reaction_3 | reaction_4 => cases h
  | producer_n | producer_o =>
    obtain ⟨_, hl⟩ := h
    rcases l with ⟨⟨_ | _ | _ | _ | _ | _ | _, i⟩, n, o⟩ <;> simp_all [q5.inside, entry]
  | reaction_1 =>
    obtain ⟨_, hl⟩ := h
    rcases l with ⟨_ | _, i⟩ <;> simp_all [q5.inside, entry]
  | reaction_2 =>
    rcases h with ⟨_, hl⟩ | ⟨_, hl⟩ <;> rcases l with ⟨_ | _, i⟩ <;> simp_all [q5.inside, entry]

/-- Where no process can run, each of the six has ended, or waits with a false
guard. -/
theorem stuck_cases (h : (program N O T).Reachable s) (hs : (program N O T).Stuck s)
    (hp : p ≠ .krypton) : (program N O T).Finished s p ∨
      ∃ c, p = waiter c ∧ ¬ Guard s.shared.mem c ∧
        inside p (s.locs p) = true ∧ entry p (s.locs p) = true := by
  obtain ⟨hfree, hcases⟩ := h.ok.stuck hs
  rcases hcases p with hfin | ⟨w, l, hpc, hw⟩
  · exact .inl hfin
  · rcases w with _ | c | m
    · exact absurd rfl hw
    · refine .inr ⟨c, ?_⟩
      have hA := asserts h p
      have hloc : s.locs p = l := by rw [State.locs, hpc, Point.loc_asleep]
      have hin : inside p l = true := h.ok.asleep p _ l hpc
      obtain ⟨hwaiter, hguard⟩ := hA.sleeps c (by rw [hpc]; rfl)
      rw [hpc] at hA
      refine ⟨hwaiter, hguard.resolve_right ?_, hloc ▸ hin, ?_⟩
      · rintro ⟨r, hr⟩
        obtain ⟨hrin, hre⟩ := hr.inside
        have hown := (h.ok.owner r).mpr ⟨_, (asserts h r).inner hrin hre, hrin⟩
        cases hfree.symm.trans hown
      · rw [hloc, ← Bool.not_eq_false]
        intro he
        cases hA.inner hin he
    · obtain ⟨l0, v, v', hgoes⟩ := asleep_from h hw p l hpc
      exact absurd (waits_for_semaphore hgoes) hp

/-- A reaction that finds its guard true does not wait, and ends. -/
theorem waiter_ends {c : Cond} (h : (program N O T).Reachable s) (hs : (program N O T).Stuck s)
    (hguard : inside (waiter c) (s.locs (waiter c)) = true →
      entry (waiter c) (s.locs (waiter c)) = true → Guard s.shared.mem c) :
    (program N O T).Finished s (waiter c) := by
  have hp : waiter c ≠ .krypton := by cases c <;> nofun
  refine (stuck_cases h hs hp).resolve_right ?_
  rintro ⟨c', hw, hfalse, hin, he⟩
  obtain rfl : c = c' := by cases c <;> cases c' <;> first | rfl | cases hw
  exact hfalse (hguard hin he)

theorem producers_end (h : (program N O T).Reachable s) (hs : (program N O T).Stuck s) :
    (program N O T).Finished s .producer_n ∧ (program N O T).Finished s .producer_o := by
  constructor
  · refine (stuck_cases (p := .producer_n) h hs nofun).resolve_right ?_
    rintro ⟨c, hw, _⟩
    cases c <;> cases hw
  · refine (stuck_cases (p := .producer_o) h hs nofun).resolve_right ?_
    rintro ⟨c, hw, _⟩
    cases c <;> cases hw

/-- All atoms of N are there, and enough of them are left. -/
theorem reaction_1_ends (h : (program N O T).Reachable s) (hs : (program N O T).Stuck s) :
    (program N O T).Finished s .reaction_1 := by
  refine waiter_ends (c := .c_N2_ready) h hs fun _ he => ?_
  have hadded : added (s.locs .producer_n) = N :=
    (turns h .producer_n).past_done (Finished.atEnd (producers_end h hs).1) (by simp)
  have hlines : (s.locs .reaction_1).line = Reaction1Line.test ∨
      (s.locs .reaction_1).line = Reaction1Line.take := by simpa [waiter, entry] using he
  have hlt : took_1 (s.locs .reaction_1) < (N / 2 : Nat) := by
    refine (turns h .reaction_1).past_lt ?_ ?_ ?_ <;> rcases hlines with hl | hl <;> simp [hl]
  have hnum := (counts h).num_n
  simp only [Guard]
  omega

theorem reaction_2_ends (h : (program N O T).Reachable s) (hs : (program N O T).Stuck s) :
    (program N O T).Finished s .reaction_2 := by
  refine waiter_ends (c := .c_O2_ready) h hs fun _ he => ?_
  have hadded : added (s.locs .producer_o) = O :=
    (turns h .producer_o).past_done (Finished.atEnd (producers_end h hs).2) (by simp)
  have hlines : (s.locs .reaction_2).line = Reaction2Line.test ∨
      (s.locs .reaction_2).line = Reaction2Line.take := by simpa [waiter, entry] using he
  have hlt : took_2 (s.locs .reaction_2) < (O / 2 : Nat) := by
    refine (turns h .reaction_2).past_lt ?_ ?_ ?_ <;> rcases hlines with hl | hl <;> simp [hl]
  have hnum := (counts h).num_o
  simp only [Guard]
  omega

/-- What the reactions 1 and 2 have given in the end. -/
theorem all_given (h : (program N O T).Reachable s) (hs : (program N O T).Stuck s) :
    gave_1 (s.locs .reaction_1) = (N / 2 : Nat) ∧ gave_2 (s.locs .reaction_2) = (O / 2 : Nat) :=
  ⟨(turns h .reaction_1).past_done (Finished.atEnd (reaction_1_ends h hs)) (by simp),
    (turns h .reaction_2).past_done (Finished.atEnd (reaction_2_ends h hs)) (by simp)⟩

/-- The estimate leaves enough molecules for the last turn. -/
theorem reaction_3_ends (h : (program N O T).Reachable s) (hs : (program N O T).Stuck s) :
    (program N O T).Finished s .reaction_3 := by
  refine waiter_ends (c := .c_NO2_ready) h hs fun _ he => ?_
  obtain ⟨hgave_1, hgave_2⟩ := all_given h hs
  obtain ⟨hn2, ho2, hn2_nonneg, ho2_nonneg, _⟩ := estimate_fits N O T
  have hline : (s.locs .reaction_3).line = Reaction3Line.test := by simpa [waiter, entry] using he
  have hlt : took_n2 (s.locs .reaction_3) < (estimate N O T).est_num_no2 :=
    (turns h .reaction_3).past_lt (by simp [hline]) (by simp [hline]) (by simp [hline])
  have hlt' : took_o2 (s.locs .reaction_3) < (estimate N O T).est_num_no2 :=
    (turns h .reaction_3).past_lt (by simp [hline]) (by simp [hline]) (by simp [hline])
  have hle : took_4 (s.locs .reaction_4) ≤ (estimate N O T).est_num_o3 :=
    (turns h .reaction_4).past_le (by simp) (by simp)
  have hnum_n2 := (counts h).num_n2
  have hnum_o2 := (counts h).num_o2
  constructor <;> omega

theorem reaction_4_ends (h : (program N O T).Reachable s) (hs : (program N O T).Stuck s) :
    (program N O T).Finished s .reaction_4 := by
  refine waiter_ends (c := .c_O3_ready) h hs fun _ he => ?_
  obtain ⟨_, hgave_2⟩ := all_given h hs
  obtain ⟨_, ho2, _, ho2_nonneg, _⟩ := estimate_fits N O T
  have hline : (s.locs .reaction_4).line = Reaction4Line.test := by simpa [waiter, entry] using he
  have hlt : took_4 (s.locs .reaction_4) < (estimate N O T).est_num_o3 :=
    (turns h .reaction_4).past_lt (by simp [hline]) (by simp [hline]) (by simp [hline])
  have hle : took_o2 (s.locs .reaction_3) ≤ (estimate N O T).est_num_no2 :=
    (turns h .reaction_3).past_le (by simp) (by simp)
  have hnum_o2 := (counts h).num_o2
  simp only [Guard]
  omega

/-- Where no process can run, all six have ended. -/
theorem stuck_finished (h : (program N O T).Reachable s) (hs : (program N O T).Stuck s)
    (hp : p ≠ .krypton) : (program N O T).Finished s p := by
  cases p with
  | krypton => exact absurd rfl hp
  | producer_n => exact (producers_end h hs).1
  | producer_o => exact (producers_end h hs).2
  | reaction_1 => exact reaction_1_ends h hs
  | reaction_2 => exact reaction_2_ends h hs
  | reaction_3 => exact reaction_3_ends h hs
  | reaction_4 => exact reaction_4_ends h hs

/-- The counters at the end. -/
structure Outcome (num_n_i num_o_i : Nat) (est : Est) (stat : Stat) : Prop where
  num_n : stat.num_n = (num_n_i % 2 : Nat)
  num_o : stat.num_o = (num_o_i % 2 : Nat)
  num_n2 : stat.num_n2 = (num_n_i / 2 : Nat) - est.est_num_no2
  num_o2 : stat.num_o2 = (num_o_i / 2 : Nat) - 2 * est.est_num_no2 - 3 * est.est_num_o3
  num_no2 : stat.num_no2 = 2 * est.est_num_no2
  num_o3 : stat.num_o3 = 2 * est.est_num_o3

/-- The result does not depend on the order of the steps. -/
theorem outcome (h : (program N O T).Reachable s)
    (hend : ∀ p, p ≠ .krypton → (program N O T).Finished s p) :
    Outcome N O (estimate N O T) s.shared.mem := by
  obtain ⟨h1, h2, h3, h4, h5, h6, h7, h8⟩ := counts h
  have hdone : ∀ p, p ≠ .krypton → AtEnd p (s.locs p) := fun p hp => Finished.atEnd (hend p hp)
  have hprod_n : added (s.locs .producer_n) = N :=
    (turns h .producer_n).past_done (hdone .producer_n nofun) (by simp)
  have hprod_o : added (s.locs .producer_o) = O :=
    (turns h .producer_o).past_done (hdone .producer_o nofun) (by simp)
  have htook_1 : took_1 (s.locs .reaction_1) = (N / 2 : Nat) :=
    (turns h .reaction_1).past_done (hdone .reaction_1 nofun) (by simp)
  have hgave_1 : gave_1 (s.locs .reaction_1) = (N / 2 : Nat) :=
    (turns h .reaction_1).past_done (hdone .reaction_1 nofun) (by simp)
  have htook_2 : took_2 (s.locs .reaction_2) = (O / 2 : Nat) :=
    (turns h .reaction_2).past_done (hdone .reaction_2 nofun) (by simp)
  have hgave_2 : gave_2 (s.locs .reaction_2) = (O / 2 : Nat) :=
    (turns h .reaction_2).past_done (hdone .reaction_2 nofun) (by simp)
  have hthird := turns h .reaction_3
  have hthird_done := hdone .reaction_3 nofun
  have htook_n2 : took_n2 (s.locs .reaction_3) = (estimate N O T).est_num_no2 :=
    hthird.past_done hthird_done (by simp)
  have htook_o2 : took_o2 (s.locs .reaction_3) = (estimate N O T).est_num_no2 :=
    hthird.past_done hthird_done (by simp)
  have hgave_no2 : gave_no2 (s.locs .reaction_3) = (estimate N O T).est_num_no2 :=
    hthird.past_done hthird_done (by simp)
  have htook_4 : took_4 (s.locs .reaction_4) = (estimate N O T).est_num_o3 :=
    (turns h .reaction_4).past_done (hdone .reaction_4 nofun) (by simp)
  have hgave_4 : gave_4 (s.locs .reaction_4) = (estimate N O T).est_num_o3 :=
    (turns h .reaction_4).past_done (hdone .reaction_4 nofun) (by simp)
  constructor <;> omega

/-- The six processes never get stuck, and come to one result. The loop of
`krypton` ends, and only where no reaction is possible. -/
theorem simulation_ends (N O : Nat) (T : Int) :
    (∀ s, (program N O T).Reachable s → (program N O T).Stuck s →
      ∀ p, p ≠ .krypton → (program N O T).Finished s p) ∧
    (∀ s, (program N O T).Reachable s →
      (∀ p, p ≠ .krypton → (program N O T).Finished s p) →
        Outcome N O (estimate N O T) s.shared.mem) ∧
    (∀ k, 0 ≤ ((Est.body T)^[k] (Est.start N O)).est_num_n2 ∧
      0 ≤ ((Est.body T)^[k] (Est.start N O)).est_num_o2) ∧
    ∃ n, (∀ k < n, ((Est.body T)^[k] (Est.start N O)).Goes T) ∧
      (Est.body T)^[n] (Est.start N O) = estimate N O T ∧
      ¬ (estimate N O T).CanNO2 T ∧ ¬ (estimate N O T).CanO3 T := by
  refine ⟨fun s h hs p hp => stuck_finished h hs hp, fun s h hend => outcome h hend,
    fun k => ?_, ?_⟩
  · have hfits := Est.Fits.iterate N O T k
    exact ⟨hfits.n2_nonneg, hfits.o2_nonneg⟩
  · obtain ⟨n, hbefore, hlast, hend⟩ := Est.loop_ends T (Est.start N O)
    exact ⟨n, hbefore, hlast, not_or.mp hend⟩

/-! ## A run -/

/-- Two atoms of N, and none of O. -/
theorem estimate_two : estimate 2 0 100 = ⟨1, 0, 0, 0⟩ := by
  unfold estimate
  rw [Est.loop, if_neg (by decide)]
  rfl

/-- The first four processes, one after another. -/
theorem first_four : ∃ s, (program 2 0 100).Reachable s ∧
    s.shared.mem = ⟨⟨0, 0, 1, 0, 0, 0⟩, 2, 0⟩ ∧ s.shared.sems .s_procs_completed = ⟨-1, []⟩ ∧
    s.pc .producer_n = .ready ⟨⟨.done, 2⟩, 2, 0⟩ ∧ s.pc .producer_o = .ready ⟨⟨.done, 0⟩, 0, 0⟩ ∧
    s.pc .reaction_1 = .ready ⟨.done, 1⟩ ∧ s.pc .reaction_2 = .ready ⟨.done, 0⟩ ∧
    s.pc .reaction_3 = .ready ⟨.loop, 0⟩ ∧ s.pc .reaction_4 = .ready ⟨.loop, 0⟩ ∧
    s.pc .krypton = .ready .wait := by
  let g := program 2 0 100
  obtain ⟨sh1, e1, sh2, e2, sh3, e3, sh4, e4, hmem, hsems⟩ : ∃ sh1,
      g.alone .producer_n 12 (.ready ⟨⟨.loop, 0⟩, 0, 0⟩, g.init.shared) =
        some (.ready ⟨⟨.done, 2⟩, 2, 0⟩, sh1) ∧ ∃ sh2,
      g.alone .reaction_1 7 (.ready ⟨.loop, 0⟩, sh1) = some (.ready ⟨.done, 1⟩, sh2) ∧ ∃ sh3,
      g.alone .producer_o 1 (.ready ⟨⟨.loop, 0⟩, 0, 0⟩, sh2) =
        some (.ready ⟨⟨.done, 0⟩, 0, 0⟩, sh3) ∧ ∃ sh4,
      g.alone .reaction_2 1 (.ready ⟨.loop, 0⟩, sh3) = some (.ready ⟨.done, 0⟩, sh4) ∧
      sh4.mem = ⟨⟨0, 0, 1, 0, 0, 0⟩, 2, 0⟩ ∧ sh4.sems .s_procs_completed = ⟨-1, []⟩ :=
    ⟨_, rfl, _, rfl, _, rfl, _, rfl, rfl, rfl⟩
  obtain ⟨s1, h1, hpc1, rfl, ho1⟩ := Program.Reachable.init.alone rfl e1
  obtain ⟨s2, h2, hpc2, rfl, ho2⟩ := h1.alone (ho1 .reaction_1 (by simp)) e2
  obtain ⟨s3, h3, hpc3, rfl, ho3⟩ := h2.alone
    ((ho2 .producer_o (by simp)).trans (ho1 .producer_o (by simp))) e3
  obtain ⟨s4, h4, hpc4, rfl, ho4⟩ := h3.alone ((ho3 .reaction_2 (by simp)).trans
    ((ho2 .reaction_2 (by simp)).trans (ho1 .reaction_2 (by simp)))) e4
  have hrest : ∀ q, q ≠ .producer_n → q ≠ .reaction_1 → q ≠ .producer_o → q ≠ .reaction_2 →
      s4.pc q = g.init.pc q := by
    intro q hn hr1 ho hr2
    rw [ho4 q hr2, ho3 q ho, ho2 q hr1, ho1 q hn]
  refine ⟨s4, h4, hmem, hsems, ?_, ?_, ?_, hpc4, ?_, ?_, ?_⟩
  · rw [ho4 _ (by simp), ho3 _ (by simp), ho2 _ (by simp), hpc1]
  · rw [ho4 _ (by simp), hpc3]
  · rw [ho4 _ (by simp), ho3 _ (by simp), hpc2]
  all_goals exact hrest _ (by simp) (by simp) (by simp) (by simp)

/-- All six have ended. -/
theorem exists_end : ∃ s, (program 2 0 100).Reachable s ∧
    s.shared.mem = ⟨⟨0, 0, 1, 0, 0, 0⟩, 2, 0⟩ ∧
    (∀ p, p ≠ .krypton → (program 2 0 100).Finished s p) ∧
    ∀ p l, s.pc p = .ready l → inside p l = false := by
  obtain ⟨s, h, hmem, hsems, hn, ho, hr1, hr2, hr3, hr4, hk⟩ := first_four
  have e5 : (program 2 0 100).alone .reaction_3 1 (.ready ⟨.loop, 0⟩, s.shared) =
      some (.ready ⟨.done, 0⟩, { s.shared with
        sems := update s.shared.sems .s_procs_completed ⟨0, []⟩ }) := by
    simp [Program.alone, program, reaction_3, estimate_two, Shared.effect, hsems, fifo.Sem.apply,
      fifo.Sem.grants]
  obtain ⟨s5, h5, hpc5, hsh5, ho5⟩ := h.alone hr3 e5
  have e6 : (program 2 0 100).alone .reaction_4 1 (.ready ⟨.loop, 0⟩, s5.shared) =
      some (.ready ⟨.done, 0⟩, { s5.shared with
        sems := update s5.shared.sems .s_procs_completed ⟨1, []⟩ }) := by
    simp [Program.alone, program, reaction_4, estimate_two, Shared.effect, hsh5, fifo.Sem.apply,
      fifo.Sem.grants]
  obtain ⟨s6, h6, hpc6, hsh6, ho6⟩ := h5.alone ((ho5 .reaction_4 (by simp)).trans hr4) e6
  have hpcs : ∀ q, q ≠ .reaction_3 → q ≠ .reaction_4 → s6.pc q = s.pc q := by
    intro q hq3 hq4
    rw [ho6 q hq4, ho5 q hq3]
  have hends : ∀ p, p ≠ .krypton → ∃ l, s6.pc p = .ready l ∧
      (program 2 0 100).op p l = .done ∧ inside p l = false := by
    rintro (_ | _ | _ | _ | _ | _ | _) hp
    · exact absurd rfl hp
    · exact ⟨_, (hpcs .producer_n (by simp) (by simp)).trans hn, rfl, rfl⟩
    · exact ⟨_, (hpcs .producer_o (by simp) (by simp)).trans ho, rfl, rfl⟩
    · exact ⟨_, (hpcs .reaction_1 (by simp) (by simp)).trans hr1, rfl, rfl⟩
    · exact ⟨_, (hpcs .reaction_2 (by simp) (by simp)).trans hr2, rfl, rfl⟩
    · exact ⟨_, (ho6 .reaction_3 (by simp)).trans hpc5, rfl, rfl⟩
    · exact ⟨_, hpc6, rfl, rfl⟩
  refine ⟨s6, h6, ?_, fun p hp => ?_, fun p l hpc => ?_⟩
  · rw [hsh6, hsh5]
    exact hmem
  · obtain ⟨l, hl, hop, _⟩ := hends p hp
    exact ⟨l, hl, hop⟩
  · by_cases hp : p = .krypton
    · subst hp
      rfl
    · obtain ⟨l', hl, _, hin⟩ := hends p hp
      cases hl.symm.trans hpc
      exact hin

/-- The atoms of a whole run. -/
theorem atoms_of_a_run : ∃ s, (program 2 0 100).Reachable s ∧ s.shared.mem.produced_n = 2 ∧
    Conserved s.shared.mem := by
  obtain ⟨s, h, hmem, _, hout⟩ := exists_end
  exact ⟨s, h, by rw [hmem], (atoms_are_conserved 2 0 100 h).1 hout⟩

/-- The result of a whole run. -/
theorem result_of_a_run : ∃ s, (program 2 0 100).Reachable s ∧
    Outcome 2 0 (estimate 2 0 100) s.shared.mem := by
  obtain ⟨s, h, _, hend, _⟩ := exists_end
  exact ⟨s, h, (simulation_ends 2 0 100).2.1 s h hend⟩

end dlxos.q5
