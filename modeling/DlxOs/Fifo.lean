-- Locks and semaphores that are handed over in the order of arrival, over any
-- type of processes, and the runs of a labelled transition system. Each law
-- of one operation has the form that an induction over a run needs.
import Mathlib.Data.List.Basic
import Mathlib.Data.List.Induction
import Mathlib.Data.List.Nodup

namespace fifo

variable {P : Type}

/-! ## Locks -/

structure Lock (P : Type) where
  owner : Option P
  waiting : List P

inductive LockOp (P : Type) where
  | acquire (p : P)
  | release (p : P)

namespace Lock

variable [DecidableEq P]

/-- A process that is not the owner waits where the lock is taken. The owner
hands the lock to the process that waits longest. -/
def apply (s : Lock P) : LockOp P → Lock P
  | .acquire p => match s.owner with
    | none => { s with owner := some p }
    | some q => if q = p then s else { s with waiting := s.waiting ++ [p] }
  | .release p =>
    if s.owner = some p then ⟨s.waiting.head?, s.waiting.tail⟩ else s

/-- The processes that asked for the lock with an operation. -/
def asks (s : Lock P) : LockOp P → List P
  | .acquire p => if s.owner = some p then [] else [p]
  | .release _ => []

/-- The process that became the owner, if there is one. -/
def obtains (s s' : Lock P) : List P := if s'.owner = s.owner then [] else s'.owner.toList

structure Ok (s : Lock P) : Prop where
  nodup : s.waiting.Nodup
  owner : ∀ p, s.owner = some p → p ∉ s.waiting
  free : s.owner = none → s.waiting = []

/-- A process that waits does nothing else. -/
def Admits (s : Lock P) : LockOp P → Prop
  | .acquire p => p ∉ s.waiting
  | .release _ => True

theorem Ok.apply {s : Lock P} (h : s.Ok) {op : LockOp P} (ha : s.Admits op) : (s.apply op).Ok := by
  cases op with
  | acquire p =>
    simp only [Lock.apply]
    rcases ho : s.owner with _ | q
    · have hw := h.free ho
      exact ⟨h.nodup, by simp [hw], by simp⟩
    · by_cases hq : q = p
      · simp only [hq, if_true]
        exact h
      · simp only [hq, if_false]
        refine ⟨?_, ?_, by simp⟩
        · exact List.nodup_append.mpr ⟨h.nodup, by simp, by
            intro x hx y hy
            obtain rfl : y = p := by simpa using hy
            rintro rfl
            exact ha hx⟩
        · intro r hr
          obtain rfl : q = r := Option.some.inj hr
          simp [h.owner q ho, hq]
  | release p =>
    simp only [Lock.apply]
    split
    · refine ⟨h.nodup.tail, ?_, ?_⟩
      · rcases hw : s.waiting with _ | ⟨w, ws⟩
        · simp
        · have hd := h.nodup
          rw [hw, List.nodup_cons] at hd
          simpa using hd.1
      · rcases s.waiting with _ | ⟨w, ws⟩ <;> simp
    · exact h

/-- Nobody takes the lock from its owner. -/
theorem owner_apply {s : Lock P} {op : LockOp P} {p : P} (h : s.owner = some p)
    (hop : op ≠ .release p) : (s.apply op).owner = some p := by
  cases op with
  | acquire q =>
    simp only [Lock.apply, h]
    split <;> simp [h]
  | release q =>
    have : p ≠ q := fun he => hop (he ▸ rfl)
    simp [Lock.apply, h, this]

/-- A process stops waiting when it becomes the owner. -/
theorem waiting_apply {s : Lock P} {op : LockOp P} {p : P} (h : p ∈ s.waiting) :
    p ∈ (s.apply op).waiting ∨ (s.apply op).owner = some p := by
  cases op with
  | acquire q =>
    simp only [Lock.apply]
    split
    · exact .inl h
    · split
      · exact .inl h
      · exact .inl (by simp [h])
  | release q =>
    simp only [Lock.apply]
    split
    · rcases hw : s.waiting with _ | ⟨w, ws⟩
      · simp [hw] at h
      · rw [hw, List.mem_cons] at h
        rcases h with rfl | h
        · exact .inr (by simp)
        · exact .inl (by simpa using h)
    · exact .inl h

/-- A new owner found the lock free, or was waiting for it. -/
theorem owner_of_apply {s : Lock P} {op : LockOp P} {p : P} (h : (s.apply op).owner = some p) :
    s.owner = some p ∨ op = .acquire p ∨ p ∈ s.waiting := by
  cases op with
  | acquire q =>
    simp only [Lock.apply] at h
    split at h
    · obtain rfl : q = p := Option.some.inj h
      exact .inr (.inl rfl)
    · split at h
      · exact .inl h
      · exact .inl h
  | release q =>
    simp only [Lock.apply] at h
    split at h
    · exact .inr (.inr (List.mem_of_mem_head? h))
    · exact .inl h

/-- First come, first served: who asked is who obtained the lock, and then
who still waits, in this order. -/
theorem asks_eq {s : Lock P} (h : s.Ok) (op : LockOp P) {asked obtained : List P}
    (hq : asked = obtained ++ s.waiting) :
    asked ++ s.asks op = obtained ++ s.obtains (s.apply op) ++ (s.apply op).waiting := by
  subst hq
  obtain ⟨owner, waiting⟩ := s
  cases op with
  | acquire p =>
    rcases owner with _ | q
    · obtain rfl : waiting = [] := h.free rfl
      simp [asks, obtains, Lock.apply]
    · by_cases hq : q = p <;> simp [asks, obtains, Lock.apply, hq]
  | release p =>
    by_cases ho : owner = some p
    · subst ho
      rcases waiting with _ | ⟨w, ws⟩
      · simp [asks, obtains, Lock.apply]
      · have hne : w ≠ p := by
          rintro rfl
          exact h.owner w rfl (by simp)
        simp [asks, obtains, Lock.apply, hne]
    · simp [asks, obtains, Lock.apply, ho]

end Lock

/-! ## Semaphores -/

structure Sem (P : Type) where
  count : Int
  waiting : List P

inductive SemOp (P : Type) where
  | wait (p : P)
  | signal

namespace Sem

/-- A signal that finds a positive count wakes the process that waits longest,
and takes the permit on its behalf. -/
def apply (s : Sem P) : SemOp P → Sem P
  | .wait p =>
    if s.count ≤ 0 then { s with waiting := s.waiting ++ [p] } else { s with count := s.count - 1 }
  | .signal => match s.waiting with
    | [] => { s with count := s.count + 1 }
    | _ :: ps =>
      if 0 < s.count + 1 then { s with waiting := ps } else { s with count := s.count + 1 }

/-- The process that waits with an operation. -/
def asks : SemOp P → List P
  | .wait p => [p]
  | .signal => []

def signals : SemOp P → Nat
  | .wait _ => 0
  | .signal => 1

/-- The waits that an operation grants. -/
def grants (s : Sem P) : SemOp P → List P
  | .wait p => if s.count ≤ 0 then [] else [p]
  | .signal => if 0 < s.count + 1 then s.waiting.take 1 else []

/-- Processes wait only where there is no permit. -/
def Ok (s : Sem P) : Prop := s.waiting ≠ [] → s.count ≤ 0

theorem Ok.apply {s : Sem P} (h : s.Ok) (op : SemOp P) : (s.apply op).Ok := by
  cases op with
  | wait p =>
    simp only [Sem.apply]
    split
    · exact fun _ => by assumption
    · intro hw
      exact absurd (h hw) (by assumption)
  | signal =>
    simp only [Sem.apply]
    rcases hw : s.waiting with _ | ⟨w, ws⟩
    · simp [Ok]
    · have := h (by simp [hw])
      by_cases hc : 0 < s.count + 1
      · simpa [Ok, hc] using fun _ => this
      · simp only [hc, if_false]
        exact fun _ => by simp only; omega

/-- The count is the first count with the signals, less the grants. -/
theorem count_apply (s : Sem P) (op : SemOp P) :
    (s.apply op).count = s.count + signals op - ((s.grants op).length : Int) := by
  cases op with
  | wait p =>
    simp only [Sem.apply, signals, grants]
    split <;> simp
  | signal =>
    simp only [Sem.apply, signals, grants]
    rcases hw : s.waiting with _ | ⟨w, ws⟩
    · simp
    · by_cases hc : 0 < s.count + 1 <;> simp [hc]

/-- First come, first served. -/
theorem asks_eq {s : Sem P} (h : s.Ok) (op : SemOp P) {asked granted : List P}
    (hq : asked = granted ++ s.waiting) :
    asked ++ asks op = granted ++ s.grants op ++ (s.apply op).waiting := by
  subst hq
  cases op with
  | wait p =>
    simp only [Sem.apply, asks, grants]
    by_cases hc : s.count ≤ 0
    · simp [hc]
    · have hw : s.waiting = [] := by
        by_contra hw
        exact hc (h hw)
      simp [hc, hw]
  | signal =>
    simp only [Sem.apply, asks, grants]
    rcases hw : s.waiting with _ | ⟨w, ws⟩
    · simp
    · by_cases hc : 0 < s.count + 1 <;> simp [hc]

/-- A wait is granted only from a positive count, once the signal that grants
it is counted. -/
theorem grants_pos (s : Sem P) (op : SemOp P) (h : s.grants op ≠ []) :
    0 < s.count + signals op := by
  cases op with
  | wait p =>
    simp only [grants] at h
    split at h
    · exact absurd rfl h
    · simp only [signals]; omega
  | signal =>
    simp only [grants] at h
    split at h
    · simp only [signals]; omega
    · exact absurd rfl h

theorem grants_le_one (s : Sem P) (op : SemOp P) : (s.grants op).length ≤ 1 := by
  cases op with
  | wait p => simp only [grants]; split <;> simp
  | signal =>
    simp only [grants]
    split
    · simp only [List.length_take]; omega
    · simp

end Sem

end fifo

namespace runs

variable {S L : Type} {step : S → L → S → Prop}

/-- One step of a run: the state before it, its label, and the state after
it. -/
structure Move (S L : Type) where
  pre : S
  label : L
  post : S

/-- A run from one state to another, with its steps, the last one at the
end. -/
inductive Run (step : S → L → S → Prop) (s : S) : List (Move S L) → S → Prop where
  | nil : Run step s [] s
  | snoc {tr : List (Move S L)} {t : S} {l : L} {u : S} :
    Run step s tr t → step t l u → Run step s (tr ++ [⟨t, l, u⟩]) u

/-- What holds at the start, and is kept by each step, holds of the run. -/
theorem Run.rule {s : S} {I : List (Move S L) → S → Prop} (h0 : I [] s)
    (hstep : ∀ tr t l u, Run step s tr t → I tr t → step t l u → I (tr ++ [⟨t, l, u⟩]) u)
    {tr : List (Move S L)} {t : S} (h : Run step s tr t) : I tr t := by
  induction h with
  | nil => exact h0
  | snoc hr hs ih => exact hstep _ _ _ _ hr ih hs

/-- The rule for a property of the states alone. -/
theorem Run.invariant {I : S → Prop} (hstep : ∀ t l u, I t → step t l u → I u) {s t : S}
    {tr : List (Move S L)} (h : Run step s tr t) (h0 : I s) : I t :=
  h.rule (I := fun _ t => I t) h0 fun _ t l u _ hi hs => hstep t l u hi hs

theorem Run.append {s t u : S} {tr tr' : List (Move S L)} (h : Run step s tr t)
    (h' : Run step t tr' u) : Run step s (tr ++ tr') u := by
  induction h' with
  | nil => simpa using h
  | snoc _ hs ih =>
    rw [← List.append_assoc]
    exact ih.snoc hs

theorem Run.cons {s t u : S} {l : L} {tr : List (Move S L)} (hs : step s l t)
    (h : Run step t tr u) : Run step s (⟨s, l, t⟩ :: tr) u :=
  (Run.nil.snoc hs).append h

/-- A prefix of a run is a run. -/
theorem Run.split {s u : S} {tr tr' : List (Move S L)} (h : Run step s (tr ++ tr') u) :
    ∃ t, Run step s tr t ∧ Run step t tr' u := by
  induction tr' using List.reverseRecOn generalizing u with
  | nil => exact ⟨u, by simpa using h, .nil⟩
  | append_singleton tr' m ih =>
    rw [← List.append_assoc] at h
    generalize hr : tr ++ tr' ++ [m] = r at h
    cases h with
    | nil => simp at hr
    | snoc h hs =>
      obtain ⟨rfl, hm⟩ := List.append_inj' hr rfl
      obtain rfl := (List.cons.inj hm).1
      obtain ⟨t, h1, h2⟩ := ih h
      exact ⟨t, h1, h2.snoc hs⟩

theorem Run.eq_of_nil {s t : S} {tr : List (Move S L)} (h : Run step s tr t) (hn : tr = []) :
    t = s := by
  cases h with
  | nil => rfl
  | snoc _ _ => simp at hn

/-- The first step of a run, and the rest. -/
theorem Run.uncons {s u : S} {mv : Move S L} {tr : List (Move S L)}
    (h : Run step s (mv :: tr) u) :
    mv.pre = s ∧ step s mv.label mv.post ∧ Run step mv.post tr u := by
  rw [← List.singleton_append] at h
  obtain ⟨t, h1, h2⟩ := h.split
  generalize hr : [mv] = one at h1
  cases h1 with
  | nil => cases hr
  | snoc h0 hs =>
    rw [← List.nil_append [mv]] at hr
    obtain ⟨hnil, hmv⟩ := List.append_inj' hr rfl
    obtain rfl := (List.cons.inj hmv).1
    have hpre := h0.eq_of_nil hnil.symm
    subst hpre
    exact ⟨rfl, hs, h2⟩

/-- A simulation carries runs over. -/
theorem Run.map {S' L' : Type} {step' : S' → L' → S' → Prop} {I : S → Prop} (f : S → S')
    (g : L → L') (hI : ∀ t l u, I t → step t l u → I u)
    (hf : ∀ t l u, I t → step t l u → step' (f t) (g l) (f u)) {s t : S} (h0 : I s)
    {tr : List (Move S L)} (h : Run step s tr t) :
    Run step' (f s) (tr.map fun m => ⟨f m.pre, g m.label, f m.post⟩) (f t) := by
  induction h with
  | nil => exact .nil
  | snoc hr hs ih =>
    rw [List.map_append]
    exact ih.snoc (hf _ _ _ (hr.invariant hI h0) hs)

end runs
