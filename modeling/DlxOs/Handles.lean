-- The handles that `SemCreate`, `LockCreate` and `CondCreate` return over a
-- run. `CondCreate` takes any number of a lock that is in range, so a
-- condition variable can come to belong to a lock that nobody created.
import DlxOs.Exec

namespace dlxos

open Function runs

variable {a b : System} {v : Int} {e : Event} {r : Return} {p : Pid} {q : KQueue}
  {m m' m0 : Machine} {lab : Label} {tr : List (Move Machine Label)} {bt : Boot}

/-! ## The tables -/

inductive Pool where
  | sems
  | locks
  | conds
deriving DecidableEq

/-- The table from which a call takes a new object. -/
def Call.pool : Call → Option Pool
  | .semCreate _ => some .sems
  | .lockCreate => some .locks
  | .condCreate _ => some .conds
  | _ => none

/-- The object that the handle names in the table. -/
def System.named (a : System) (h : Int) : Pool → Option KQueue
  | .sems => (a.sem? h).map .sem
  | .locks => (a.lock? h).map .lock
  | .conds => (a.cond? h).map .cond

/-- Every object is as before, with its waiting queue. -/
def System.Unaltered (a b : System) : Prop := ∀ q, a.Same b q

/-- The object is new, nobody waits for it, and every other one is as
before. -/
structure System.Makes (a b : System) (q : KQueue) : Prop where
  unused : a.created q = false
  made : b.created q = true
  empty : b.queue q = []
  others : ∀ q', q' ≠ q → a.Same b q'

/-! ## One step -/

theorem firstUnused_none {max : Nat} {inuse : Fin max → Bool} (h : firstUnused inuse = none)
    (i : Fin max) : inuse i = true := by
  unfold firstUnused at h
  simpa using List.find?_eq_none.mp h i (List.mem_finRange i)

theorem unaltered_setStopped (a : System) (p : Pid) (x : Option (Call × Stop)) :
    a.Unaltered (a.setStopped p x) := by
  intro q
  cases q <;> first | exact ⟨rfl, rfl⟩ | rfl | trivial

/-- A call of `SemCreate` makes a semaphore, or it finds all of them in use. -/
theorem semCreate_step (hi : Inv a) {count : Int}
    (hs : a.step v (.call (.semCreate count)) = some (b, r)) :
    (r = some (.semCreate count, SYNC_FAIL) ∧ (∀ s, (a.sems s).inuse = true) ∧ a.Unaltered b) ∨
      ∃ s : SemId, r = some (.semCreate count, (s.val : Int)) ∧ a.Makes b (.sem s) ∧
        b.sems s = ⟨toInt32 count, true⟩ := by
  obtain ⟨p, d, res, hp, hc, rfl, rfl⟩ := step_call hs
  cases hc with
  | unnamed ht =>
    refine .inl ⟨rfl, firstUnused_none ?_, unaltered_setStopped a p _⟩
    simpa [System.callTouches] using ht
  | @semCreate _ s hu =>
    have hunused : a.created (.sem s) = false := firstUnused_some hu
    refine .inr ⟨s, rfl, ⟨hunused, by simp [System.created], ?_, fun q hq => ?_⟩, by simp⟩
    · exact hi.unused (q := .sem s) rfl hunused
    · exact System.Same.step hs (by simpa [System.touches, System.callTouches, hu] using hq)

theorem lockCreate_step (hi : Inv a) (hs : a.step v (.call .lockCreate) = some (b, r)) :
    (r = some (.lockCreate, SYNC_FAIL) ∧ (∀ l, (a.locks l).inuse = true) ∧ a.Unaltered b) ∨
      ∃ l : LockId, r = some (.lockCreate, (l.val : Int)) ∧ a.Makes b (.lock l) ∧
        b.locks l = ⟨-1, true⟩ := by
  obtain ⟨p, d, res, hp, hc, rfl, rfl⟩ := step_call hs
  cases hc with
  | unnamed ht =>
    refine .inl ⟨rfl, firstUnused_none ?_, unaltered_setStopped a p _⟩
    simpa [System.callTouches] using ht
  | @lockCreate l hu =>
    have hunused : a.created (.lock l) = false := firstUnused_some hu
    refine .inr ⟨l, rfl, ⟨hunused, by simp [System.created], ?_, fun q hq => ?_⟩, by simp⟩
    · exact hi.unused (q := .lock l) rfl hunused
    · exact System.Same.step hs (by simpa [System.touches, System.callTouches, hu] using hq)

/-- A call of `CondCreate` looks at the range of its handle, and at the table
of condition variables. -/
theorem condCreate_step (hi : Inv a) {h : Int}
    (hs : a.step v (.call (.condCreate h)) = some (b, r)) :
    (r = some (.condCreate h, INVALID_COND) ∧
        (slot? MAX_LOCKS h = none ∨ ∀ c, (a.conds c).inuse = true) ∧ a.Unaltered b) ∨
      ∃ (l : LockId) (c : CondId), slot? MAX_LOCKS h = some l ∧
        r = some (.condCreate h, (c.val : Int)) ∧ a.Makes b (.cond c) ∧ b.conds c = ⟨l, true⟩ := by
  obtain ⟨p, d, res, hp, hc, rfl, rfl⟩ := step_call hs
  cases hc with
  | unnamed ht =>
    refine .inl ⟨rfl, ?_, unaltered_setStopped a p _⟩
    rcases hl : slot? MAX_LOCKS h with _ | l
    · exact .inl rfl
    · exact .inr (firstUnused_none (by simpa [System.callTouches, hl] using ht))
  | @condCreate _ l c hl hu =>
    have hunused : a.created (.cond c) = false := firstUnused_some hu
    refine .inr ⟨l, c, hl, rfl, ⟨hunused, by simp [System.created], ?_, fun q hq => ?_⟩, by simp⟩
    · exact hi.unused (q := .cond c) rfl hunused
    · exact System.Same.step hs (by simpa [System.touches, System.callTouches, hl, hu] using hq)

/-- A call that creates something returns in the step in which it is made. -/
theorem creates_at_once (hi : Inv a) (hs : a.step v e = some (b, r)) {c : Call} {h : Int}
    (hr : r = some (c, h)) (hc : c.pool ≠ none) : e = .call c := by
  cases System.steps hs with
  | call hq hcall =>
    rename_i c' d res
    rcases res with n | stop
    · obtain ⟨rfl, _⟩ := Prod.mk.inj (Option.some.inj hr)
      rfl
    · cases hr
  | @resume x ps c' stop d res hq hstop hcall =>
    rcases res with n | stop'
    · obtain ⟨rfl, _⟩ := Prod.mk.inj (Option.some.inj hr)
      obtain ⟨home, waits, hsl⟩ := hi.sleepers
      have hmatch := hsl.matched x c' stop hstop
      cases c' <;> first | exact absurd rfl hc | cases hmatch
    · cases hr
  | _ => cases hr

theorem handle_ne_fail {max : Nat} {h : Int} {i : Fin max} (hs : slot? max h = some i) :
    h ≠ SYNC_FAIL := by
  rw [slot?_eq_some.mp hs, SYNC_FAIL]
  omega

/-- The handle that a creator returns was free before, and names its object
from then on. -/
theorem named_created (hi : Inv a) (hs : a.step v e = some (b, r)) {c : Call} {h : Int} {k : Pool}
    (hr : r = some (c, h)) (hc : c.pool = some k) (hh : h ≠ SYNC_FAIL) :
    a.named h k = none ∧ b.named h k ≠ none := by
  obtain rfl := creates_at_once hi hs hr (by simp [hc])
  cases c with
  | semCreate count =>
    cases hc
    rcases semCreate_step hi hs with ⟨hfail, _⟩ | ⟨s, hok, hm, _⟩
    · cases hr.symm.trans hfail
      exact absurd rfl hh
    · cases hr.symm.trans hok
      have h1 := hm.unused
      have h2 := hm.made
      simp only [System.created] at h1 h2
      simp [System.named, System.sem?, h1, h2]
  | lockCreate =>
    cases hc
    rcases lockCreate_step hi hs with ⟨hfail, _⟩ | ⟨l, hok, hm, _⟩
    · cases hr.symm.trans hfail
      exact absurd rfl hh
    · cases hr.symm.trans hok
      have h1 := hm.unused
      have h2 := hm.made
      simp only [System.created] at h1 h2
      simp [System.named, System.lock?, h1, h2]
  | condCreate h' =>
    cases hc
    rcases condCreate_step hi hs with ⟨hfail, _⟩ | ⟨l, x, _, hok, hm, _⟩
    · cases hr.symm.trans hfail
      exact absurd rfl hh
    · cases hr.symm.trans hok
      have h1 := hm.unused
      have h2 := hm.made
      simp only [System.created] at h1 h2
      simp [System.named, System.cond?, h1, h2]
  | _ => cases hc

/-- A handle keeps its object. -/
theorem named_keeps (hi : Inv a) (hs : a.step v e = some (b, r)) {h : Int} {k : Pool}
    (ha : a.named h k ≠ none) : b.named h k ≠ none := by
  have hg := hi.grows hs
  cases k with
  | sems =>
    obtain ⟨s, hs'⟩ : ∃ s, a.sem? h = some s := by
      simpa [System.named, Option.ne_none_iff_exists'] using ha
    obtain ⟨hslot, hin⟩ := sem?_some.mp hs'
    simp [System.named, sem?_some.mpr ⟨hslot, hg.sems s hin⟩]
  | locks =>
    obtain ⟨l, hl⟩ : ∃ l, a.lock? h = some l := by
      simpa [System.named, Option.ne_none_iff_exists'] using ha
    obtain ⟨hslot, hin⟩ := lock?_some.mp hl
    simp [System.named, lock?_some.mpr ⟨hslot, hg.locks l hin⟩]
  | conds =>
    obtain ⟨c, hc⟩ : ∃ c, a.cond? h = some c := by
      simpa [System.named, Option.ne_none_iff_exists'] using ha
    obtain ⟨hslot, hin⟩ := cond?_some.mp hc
    have hin' : (b.conds c).inuse = true := by rw [hg.conds c hin, hin]
    simp [System.named, cond?_some.mpr ⟨hslot, hin'⟩]

/-- A handle that names an object did so before, or was returned in the
step. -/
theorem named_step (hs : a.step v e = some (b, r)) {h : Int} {k : Pool}
    (ha : a.named h k = none) (hb : b.named h k ≠ none) :
    ∃ c, r = some (c, h) ∧ c.pool = some k ∧ h ≠ SYNC_FAIL := by
  cases k with
  | sems =>
    obtain ⟨s, hs'⟩ : ∃ s, b.sem? h = some s := by
      simpa [System.named, Option.ne_none_iff_exists'] using hb
    obtain ⟨hslot, hin⟩ := sem?_some.mp hs'
    have hno : (a.sems s).inuse = false := by
      by_contra hno
      simp [System.named, sem?_some.mpr ⟨hslot, by simpa using hno⟩] at ha
    obtain ⟨count, _, hr, _⟩ := sem_created hs hno hin
    exact ⟨_, by rw [hr, slot?_eq_some.mp hslot], rfl, handle_ne_fail hslot⟩
  | locks =>
    obtain ⟨l, hl⟩ : ∃ l, b.lock? h = some l := by
      simpa [System.named, Option.ne_none_iff_exists'] using hb
    obtain ⟨hslot, hin⟩ := lock?_some.mp hl
    have hno : (a.locks l).inuse = false := by
      by_contra hno
      simp [System.named, lock?_some.mpr ⟨hslot, by simpa using hno⟩] at ha
    obtain ⟨_, hr, _⟩ := lock_created hs hno hin
    exact ⟨_, by rw [hr, slot?_eq_some.mp hslot], rfl, handle_ne_fail hslot⟩
  | conds =>
    obtain ⟨c, hc⟩ : ∃ c, b.cond? h = some c := by
      simpa [System.named, Option.ne_none_iff_exists'] using hb
    obtain ⟨hslot, hin⟩ := cond?_some.mp hc
    have hno : (a.conds c).inuse = false := by
      by_contra hno
      simp [System.named, cond?_some.mpr ⟨hslot, by simpa using hno⟩] at ha
    obtain ⟨_, _, hr⟩ := cond_created hs hno hin
    exact ⟨_, by rw [hr, slot?_eq_some.mp hslot], rfl, handle_ne_fail hslot⟩

/-! ## Runs -/

/-- The handle that a creator of objects of this kind returned in the step. -/
def made (k : Pool) (mv : Move Machine Label) : Option Int :=
  mv.label.2.bind fun x => if x.1.pool = some k ∧ x.2 ≠ SYNC_FAIL then some x.2 else none

/-- The handles that the creators returned in a run. -/
def handles (k : Pool) (tr : List (Move Machine Label)) : List Int := tr.filterMap (made k)

theorem made_some {k : Pool} {mv : Move Machine Label} {h : Int} : made k mv = some h ↔
    ∃ c, mv.label.2 = some (c, h) ∧ c.pool = some k ∧ h ≠ SYNC_FAIL := by
  simp only [made, Option.bind_eq_some_iff]
  constructor
  · rintro ⟨⟨c, n⟩, hr, hif⟩
    split at hif
    · rename_i hc
      obtain rfl := Option.some.inj hif
      exact ⟨c, hr, hc⟩
    · cases hif
  · rintro ⟨c, hr, hc⟩
    exact ⟨(c, h), hr, if_pos hc⟩

/-- The handles of a run are distinct, and they are the ones that name an
object. -/
theorem handles_run (hb : boot bt = .ok m0) (hr : Run Machine.Step m0 tr m) (k : Pool) :
    (handles k tr).Nodup ∧ ∀ h, m.system.named h k ≠ none ↔ h ∈ handles k tr := by
  refine hr.rule (I := fun tr m => (handles k tr).Nodup ∧
    ∀ h, m.system.named h k ≠ none ↔ h ∈ handles k tr) ?_ ?_
  · obtain ⟨m1, hb1, _, hsys, _⟩ := boot_good bt
    obtain rfl : m0 = m1 := Except.ok.inj (hb.symm.trans hb1)
    refine ⟨List.nodup_nil, fun h => ?_⟩
    rw [hsys]
    cases k <;> simp [System.named, System.sem?, System.lock?, System.cond?, System.start,
      handles]
  · rintro tr t lab u ht ⟨hnodup, hnames⟩ hs
    have hg : Good t := Reachable.good ⟨bt, m0, tr, hb, ht⟩
    obtain ⟨⟨_, v, hv⟩, _⟩ := hg.step hs
    have hsnoc : handles k (tr ++ [⟨t, lab, u⟩]) =
        handles k tr ++ (made k ⟨t, lab, u⟩).toList := by
      simp only [handles, List.filterMap_append, List.filterMap_cons, List.filterMap_nil]
      cases made k ⟨t, lab, u⟩ <;> rfl
    rw [hsnoc]
    rcases hmade : made k ⟨t, lab, u⟩ with _ | h
    · simp only [Option.toList_none, List.append_nil]
      refine ⟨hnodup, fun h => ⟨fun hb => ?_, fun hmem => ?_⟩⟩
      · rw [← hnames h]
        intro ha
        cases hmade.symm.trans (made_some.mpr (named_step hv ha hb))
      · exact named_keeps hg.inv hv ((hnames h).mpr hmem)
    · obtain ⟨c, hr, hc, hh⟩ := made_some.mp hmade
      obtain ⟨hfree, hnew⟩ := named_created hg.inv hv hr hc hh
      have hout : h ∉ handles k tr := fun hmem => (hnames h).mpr hmem hfree
      refine ⟨?_, fun h' => ?_⟩
      · simp only [Option.toList_some]
        exact List.nodup_append.mpr ⟨hnodup, by simp, by
          intro x hx y hy
          obtain rfl : y = h := by simpa using hy
          rintro rfl
          exact hout hx⟩
      · simp only [Option.toList_some, List.mem_append, List.mem_singleton]
        constructor
        · intro hb
          by_contra hno
          rw [not_or] at hno
          have ha : t.system.named h' k = none := by
            by_contra ha
            exact hno.1 ((hnames h').mp ha)
          obtain ⟨c', hr', _⟩ := named_step hv ha hb
          cases hr.symm.trans hr'
          exact hno.2 rfl
        · rintro (hmem | rfl)
          · exact named_keeps hg.inv hv ((hnames h').mpr hmem)
          · exact hnew

/-! ## The tables over a run -/

/-- What a call of `SemCreate` does: it fails where every semaphore is in use,
and only there. -/
def SemMade (mv : Move Machine Label) (count h : Int) : Prop :=
  h = SYNC_FAIL ∧ (∀ s, (mv.pre.kernel.sems s).inuse = true) ∧
      mv.pre.system.Unaltered mv.post.system ∨
    ∃ s : SemId, h = s.val ∧ mv.pre.system.Makes mv.post.system (.sem s) ∧
      mv.post.kernel.sems s = ⟨toInt32 count, true⟩

def LockMade (mv : Move Machine Label) (h : Int) : Prop :=
  h = SYNC_FAIL ∧ (∀ l, (mv.pre.kernel.locks l).inuse = true) ∧
      mv.pre.system.Unaltered mv.post.system ∨
    ∃ l : LockId, h = l.val ∧ mv.pre.system.Makes mv.post.system (.lock l) ∧
      mv.post.kernel.locks l = ⟨-1, true⟩

/-- What a call of `CondCreate` should do. The handles of the locks that were
created before it are given. -/
def CondMade (mv : Move Machine Label) (locks : List Int) (lock h : Int) : Prop :=
  h = INVALID_COND ∧ (lock ∉ locks ∨ ∀ c, (mv.pre.kernel.conds c).inuse = true) ∧
      mv.pre.system.Unaltered mv.post.system ∨
    lock ∈ locks ∧ ∃ (l : LockId) (c : CondId), lock = l.val ∧ h = c.val ∧
      mv.pre.system.Makes mv.post.system (.cond c) ∧ mv.post.kernel.conds c = ⟨l, true⟩

structure TablesOk (tr : List (Move Machine Label)) (m : Machine) : Prop where
  distinct : ∀ k, (handles k tr).Nodup
  sems : ∀ mv ∈ tr, ∀ count h, mv.label.2 = some (.semCreate count, h) → SemMade mv count h
  locks : ∀ mv ∈ tr, ∀ h, mv.label.2 = some (.lockCreate, h) → LockMade mv h
  conds : ∀ tr1 mv tr2, tr = tr1 ++ mv :: tr2 → ∀ lock h,
    mv.label.2 = some (.condCreate lock, h) → CondMade mv (handles .locks tr1) lock h
  /-- A condition variable in use belongs to a lock in use. -/
  refers : ∀ c, (m.kernel.conds c).inuse = true →
    (m.kernel.locks (m.kernel.conds c).lock).inuse = true

/-- A call of `CondCreate` in this step is given a number out of range, or the
number of a lock in use, or there is no condition variable left. -/
def LockNamed (mv : Move Machine Label) : Prop :=
  ∀ h l, mv.label.1.event = .call (.condCreate h) → slot? MAX_LOCKS h = some l →
    (∃ c, (mv.pre.kernel.conds c).inuse = false) → (mv.pre.kernel.locks l).inuse = true

theorem Good.semMade (h : Good m) (hs : m.Step lab m') {count n : Int}
    (hr : lab.2 = some (.semCreate count, n)) : SemMade ⟨m, lab, m'⟩ count n := by
  obtain ⟨⟨_, v, hv⟩, _⟩ := h.step hs
  have he := creates_at_once h.inv hv hr (by simp [Call.pool])
  rw [he] at hv
  rcases semCreate_step h.inv hv with ⟨hfail, hfull, hsame⟩ | ⟨s, hok, hm, hval⟩
  · cases hr.symm.trans hfail
    exact .inl ⟨rfl, hfull, hsame⟩
  · cases hr.symm.trans hok
    exact .inr ⟨s, rfl, hm, hval⟩

theorem Good.lockMade (h : Good m) (hs : m.Step lab m') {n : Int}
    (hr : lab.2 = some (.lockCreate, n)) : LockMade ⟨m, lab, m'⟩ n := by
  obtain ⟨⟨_, v, hv⟩, _⟩ := h.step hs
  have he := creates_at_once h.inv hv hr (by simp [Call.pool])
  rw [he] at hv
  rcases lockCreate_step h.inv hv with ⟨hfail, hfull, hsame⟩ | ⟨l, hok, hm, hval⟩
  · cases hr.symm.trans hfail
    exact .inl ⟨rfl, hfull, hsame⟩
  · cases hr.symm.trans hok
    exact .inr ⟨l, rfl, hm, hval⟩

/-- The handle of a lock in use is one that was returned. -/
theorem lock_handle_run (hb : boot bt = .ok m0) (hr : Run Machine.Step m0 tr m) {h : Int} :
    h ∈ handles .locks tr ↔ ∃ l, slot? MAX_LOCKS h = some l ∧ (m.kernel.locks l).inuse = true := by
  rw [← (handles_run hb hr .locks).2 h]
  simp [System.named, Option.ne_none_iff_exists', lock?_some]

theorem Good.condMade (h : Good m) (hs : m.Step lab m') (hnamed : LockNamed ⟨m, lab, m'⟩)
    {locks : List Int} (hlocks : ∀ x, x ∈ locks ↔
      ∃ l, slot? MAX_LOCKS x = some l ∧ (m.kernel.locks l).inuse = true) {lock n : Int}
    (hr : lab.2 = some (.condCreate lock, n)) : CondMade ⟨m, lab, m'⟩ locks lock n := by
  obtain ⟨⟨_, v, hv⟩, _⟩ := h.step hs
  have he := creates_at_once h.inv hv hr (by simp [Call.pool])
  rw [he] at hv
  rcases condCreate_step h.inv hv with ⟨hfail, hfull, hsame⟩ | ⟨l, c, hl, hok, hm, hval⟩
  · cases hr.symm.trans hfail
    refine .inl ⟨rfl, hfull.imp_left fun hnone hmem => ?_, hsame⟩
    obtain ⟨l, hl, _⟩ := (hlocks lock).mp hmem
    cases hnone.symm.trans hl
  · cases hr.symm.trans hok
    have hin := hnamed lock l he hl ⟨c, hm.unused⟩
    exact .inr ⟨(hlocks lock).mpr ⟨l, hl, hin⟩, l, c, slot?_eq_some.mp hl, rfl, hm, hval⟩

/-- Where each condition variable is made for a lock in use, it belongs to one
from then on. -/
theorem Good.refers (h : Good m) (hs : m.Step lab m') (hnamed : LockNamed ⟨m, lab, m'⟩)
    (href : ∀ c, (m.kernel.conds c).inuse = true →
      (m.kernel.locks (m.kernel.conds c).lock).inuse = true) (c : CondId)
    (hc : (m'.kernel.conds c).inuse = true) :
    (m'.kernel.locks (m'.kernel.conds c).lock).inuse = true := by
  obtain ⟨⟨_, v, hv⟩, _⟩ := h.step hs
  have hg := h.inv.grows hv
  rcases hi : (m.kernel.conds c).inuse with _ | _
  · obtain ⟨n, he, hr⟩ := cond_created hv hi hc
    simp only at he hr
    rw [he] at hv
    rcases condCreate_step h.inv hv with ⟨hfail, _⟩ | ⟨l, x, hl, hok, _, hval⟩
    · obtain ⟨_, hn⟩ := Prod.mk.inj (Option.some.inj (hr.symm.trans hfail))
      simp only [INVALID_COND] at hn
      omega
    · obtain ⟨_, hx⟩ := Prod.mk.inj (Option.some.inj (hr.symm.trans hok))
      obtain rfl : c = x := Fin.ext (by omega)
      rw [system_conds] at hval
      rw [hval]
      exact hg.locks l (hnamed n l he hl ⟨c, hi⟩)
  · have hsame : m'.kernel.conds c = m.kernel.conds c := hg.conds c hi
    rw [hsame]
    exact hg.locks _ (href c hi)

theorem handle_tables_iff (hb : boot bt = .ok m0) (hr : Run Machine.Step m0 tr m) :
    TablesOk tr m ↔ ∀ mv ∈ tr, LockNamed mv := by
  have hstart := Reachable.start hb
  -- each step of the run starts in a good state
  have hsteps : ∀ mv ∈ tr, Good mv.pre ∧ mv.pre.Step mv.label mv.post := by
    intro mv hmv
    refine ⟨(hstart.mem hr hmv).good, ?_⟩
    obtain ⟨tr1, tr2, rfl⟩ := List.append_of_mem hmv
    obtain ⟨t, _, hr2⟩ := hr.split
    obtain ⟨rfl, hs, _⟩ := hr2.uncons
    exact hs
  constructor
  · intro hok mv hmv h l he hl ⟨c, hc⟩
    obtain ⟨hg, hs⟩ := hsteps mv hmv
    obtain ⟨tr1, tr2, rfl⟩ := List.append_of_mem hmv
    obtain ⟨t, hr1, hr2⟩ := hr.split
    obtain ⟨rfl, _⟩ := hr2.uncons
    obtain ⟨⟨_, v, hv⟩, _⟩ := hg.step hs
    simp only [he] at hv
    rcases condCreate_step hg.inv hv with ⟨_, hbad, _⟩ | ⟨l', x, hl', hlab, _⟩
    · rcases hbad with hbad | hbad
      · cases hbad.symm.trans hl
      · cases (hbad c).symm.trans hc
    · rcases hok.conds tr1 mv tr2 rfl h x hlab with ⟨hfail, _⟩ | ⟨hmem, _⟩
      · simp only [INVALID_COND] at hfail
        omega
      · obtain ⟨l'', hl'', hin⟩ := (lock_handle_run hb hr1).mp hmem
        cases hl.symm.trans hl''
        exact hin
  · intro hnamed
    refine ⟨fun k => (handles_run hb hr k).1, ?_, ?_, ?_, ?_⟩
    · intro mv hmv count h hlab
      exact (hsteps mv hmv).1.semMade (hsteps mv hmv).2 hlab
    · intro mv hmv h hlab
      exact (hsteps mv hmv).1.lockMade (hsteps mv hmv).2 hlab
    · rintro tr1 mv tr2 rfl lock h hlab
      obtain ⟨hg, hs⟩ := hsteps mv (by simp)
      obtain ⟨t, hr1, hr2⟩ := hr.split
      obtain ⟨rfl, _⟩ := hr2.uncons
      exact hg.condMade hs (hnamed mv (by simp)) (fun _ => lock_handle_run hb hr1) hlab
    · refine hr.rule (I := fun tr m => (∀ mv ∈ tr, LockNamed mv) → ∀ c,
        (m.kernel.conds c).inuse = true →
          (m.kernel.locks (m.kernel.conds c).lock).inuse = true) ?_ ?_ hnamed
      · intro _ c hc
        obtain ⟨m1, hb1, _, hsys, _⟩ := boot_good bt
        obtain rfl : m0 = m1 := Except.ok.inj (hb.symm.trans hb1)
        rw [← system_conds, hsys] at hc
        cases hc
      · intro tr t lab u ht ih hs hnamed c hc
        have hg : Good t := Reachable.good ⟨bt, m0, tr, hb, ht⟩
        exact hg.refers hs (hnamed _ (by simp)) (ih fun mv hmv => hnamed mv (by simp [hmv])) c hc

/-- A condition variable for a lock that nobody created. -/
theorem condition_variable_without_a_lock : ∃ m0 tr m, boot Boot.small = .ok m0 ∧
    Run Machine.Step m0 tr m ∧ handles .locks tr = [] ∧ (m.kernel.conds 0).inuse = true ∧
    (m.kernel.locks (m.kernel.conds 0).lock).inuse = false ∧ ¬ TablesOk tr m := by
  obtain ⟨m0, tr, m, hb, hr, hfree, hc, hl⟩ := exists_run
    [.fork true true, .fork true true, .call (.condCreate 5)]
    (fun _ a => (∀ l, (a.locks l).inuse = false) ∧ (a.conds 0).inuse = true ∧
      (a.conds 0).lock = 5) (by decide +kernel)
  have hnone : (m.kernel.locks (m.kernel.conds 0).lock).inuse = false := hfree _
  refine ⟨m0, tr, m, hb, hr, ?_, hc, hnone, fun hok => ?_⟩
  · rw [List.eq_nil_iff_forall_not_mem]
    intro h hmem
    obtain ⟨l, _, hin⟩ := (lock_handle_run hb hr).mp hmem
    cases hin.symm.trans (hfree l)
  · cases (hok.refers 0 hc).symm.trans hnone

/-- The event makes no condition variable for a lock that is not in use. -/
def System.named? (a : System) : Event → Bool
  | .call (.condCreate h) => (slot? MAX_LOCKS h).all fun l => (a.locks l).inuse
  | _ => true

/-- Every handle is used as it was returned. -/
theorem handle_tables_of_a_run : ∃ m0 tr m, boot Boot.small = .ok m0 ∧
    Run Machine.Step m0 tr m ∧ handles .locks tr ≠ [] ∧ handles .conds tr ≠ [] ∧
    TablesOk tr m := by
  obtain ⟨m0, tr, m, hb, hr, hl, hc, hnamed⟩ := exists_run
    [.fork true true, .fork true true, .call (.semCreate 3), .call .lockCreate,
      .call (.condCreate 0), .call (.condCreate 0), .call (.condCreate 99)]
    (fun ms a => (a.locks 0).inuse = true ∧ (a.conds 1).inuse = true ∧
      ∀ mv ∈ ms, mv.pre.named? mv.label.1 = true) (by decide +kernel)
  refine ⟨m0, tr, m, hb, hr, ?_, ?_, (handle_tables_iff hb hr).mpr fun mv hmv h l he hl' _ => ?_⟩
  · exact List.ne_nil_of_mem ((lock_handle_run hb hr (h := 0)).mpr ⟨0, rfl, hl⟩)
  · refine List.ne_nil_of_mem (((handles_run hb hr .conds).2 1).mp ?_)
    have hname : m.system.cond? 1 = some 1 := cond?_some.mpr ⟨rfl, hc⟩
    simp [System.named, hname]
  · have hmv' := hnamed _ (List.mem_map_of_mem hmv)
    simpa [System.named?, he, hl'] using hmv'

end dlxos
