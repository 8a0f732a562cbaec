-- Runs that are computed. A list of events runs on the system, and where the
-- memory holds two pages for each process, the machine runs through the same
-- events.
import DlxOs.PageOwners
import Mathlib.Algebra.BigOperators.Option
import Mathlib.Algebra.Group.Action.Defs

namespace dlxos

open Function runs

variable {b : Boot} {holder : Nat → Option Pid} {k : Kernel} {p : Pid} {live : Pid → Prop}
  {m m' : Machine} {l : Label} {a : System}

/-! ## Pages for a new process -/

/-- Each live process has two pages, and the other ones are free. -/
theorem Owned.nfreepages (h : Owned b k live holder) [DecidablePred live] :
    k.mem.nfreepages + 2 * (Finset.univ.filter live).card = b.pages.card := by
  have hfiber : ∀ p, (b.pages.filter fun x => holder x = some p).card =
      if live p then 2 else 0 := by
    intro p
    by_cases hp : live p
    · have hpair : (b.pages.filter fun x => holder x = some p) =
          {(k.pcbs p).userPage, (k.pcbs p).stackPage} := by
        ext x
        simp only [Finset.mem_filter, Finset.mem_insert, Finset.mem_singleton]
        rw [← h.pages p hp x]
        exact ⟨fun hx => hx.2, fun hx => ⟨h.map.held x (by simp [hx]), hx⟩⟩
      rw [hpair, Finset.card_pair (h.distinct p hp), if_pos hp]
    · rw [if_neg hp, Finset.card_eq_zero, Finset.filter_eq_empty_iff]
      exact fun x _ hx => hp (h.alive x p hx)
  have hsum := Finset.card_eq_sum_card_fiberwise (s := b.pages) (t := Finset.univ) (f := holder)
    fun _ _ => Finset.mem_coe.mpr (Finset.mem_univ _)
  rw [Fintype.sum_option] at hsum
  simp only [hfiber] at hsum
  have htwo : (∑ p, if live p then 2 else 0) = 2 * (Finset.univ.filter live).card := by
    rw [← Finset.sum_filter, Finset.sum_const, smul_eq_mul, Nat.mul_comm]
  rw [htwo] at hsum
  rw [hsum, h.map.count]

/-- Two free pages are enough for a new process. -/
theorem Owned.fork (h : Owned b k live holder) (hn : 2 ≤ k.mem.nfreepages) (p : Pid) :
    ∃ k', forkMemory p k = .ok ((), k') := by
  obtain ⟨page, m1, ha⟩ := h.map.exists (by omega)
  obtain ⟨hin, _, hmap, hcount⟩ := h.map.alloc ha (by omega) p
  obtain ⟨stack, m2, hb⟩ := hmap.exists (by omega)
  obtain ⟨hin2, _⟩ := hmap.alloc hb (by omega) p
  exact ⟨_, (forkMemory.ok_iff p k _).mpr ⟨page, stack, m1, m2, ha, (b.pages_ok hin).1, hb,
    (b.pages_ok hin2).1, rfl⟩⟩

/-! ## Runs of the system -/

instance (a : System) (e : Event) : Decidable (a.Ready e) :=
  match e with
  | .timer => inferInstanceAs (Decidable (a.current ≠ none))
  | .contextSwitch | .exit | .call _ =>
    inferInstanceAs (Decidable (∃ p, a.current = some p ∧ a.stopped p = none))
  | .fork _ _ => inferInstanceAs (Decidable (∀ p, a.current = some p → a.stopped p = none))
  | .resume => inferInstanceAs (Decidable (∃ p, a.current = some p ∧ a.stopped p ≠ none))

/-- The memory of `n` pages is enough for the event. -/
def System.fits (a : System) (n : Nat) : Event → Bool
  | .fork _ _ => 2 * (PROCESS_MAX_PROCS + 1) ≤ n + 2 * (a.queue .freepcbs).length
  | .call c => c.isSync
  | _ => true

/-- Runs through the events, and gives the steps and the last state. -/
def System.exec (n : Nat) : List Event → System →
    Option (List (Move System (Event × Return)) × System)
  | [], a => some ([], a)
  | e :: es, a =>
    if a.Ready e ∧ a.fits n e = true then
      (a.step 0 e).bind fun x => (exec n es x.1).map fun y => (⟨a, (e, x.2), x.1⟩ :: y.1, y.2)
    else none

variable {n : Nat} {e : Event} {r : Return} {es : List Event}
  {ms : List (Move System (Event × Return))} {d : System}

/-- How many processes are live. -/
theorem Good.card_live (h : Good m) :
    (Finset.univ.filter fun p => p ∉ m.queue .freepcbs).card + (m.queue .freepcbs).length =
      PROCESS_MAX_PROCS := by
  obtain ⟨home, waits, hsl⟩ := h.inv.sleepers
  have hnd : (m.queue .freepcbs).Nodup := hsl.placed.nodup .freepcbs
  have hsplit := Finset.card_filter_add_card_filter_not (s := Finset.univ)
    fun p : Pid => p ∈ m.queue .freepcbs
  have hfree : (Finset.univ.filter fun p : Pid => p ∈ m.queue .freepcbs) =
      (m.queue .freepcbs).toFinset := by
    ext p
    simp
  rw [hfree, List.toFinset_card_of_nodup hnd, Finset.card_univ, Fintype.card_fin] at hsplit
  omega

/-- The machine takes the step of the system, where the memory is enough. -/
theorem Owned.step_exists (h : Good m)
    (ho : Owned b m.kernel (fun p => p ∉ m.queue .freepcbs) holder) (hn : n ≤ b.pages.card)
    (hr : m.system.Ready e) (hfit : m.system.fits n e = true)
    (hs : m.system.step 0 e = some (d, r)) :
    ∃ m', m.Step (⟨e, 0⟩, r) m' ∧ m'.system = d := by
  have hr' : m.Ready ⟨e, 0⟩ := (h.ready ⟨e, 0⟩).mpr hr
  have hgoes : Goes m ⟨e, 0⟩ (m.system.step 0 e) := by
    cases e with
    | timer => exact Machine.step_rotate h hr' (.inl rfl) 0
    | contextSwitch => exact Machine.step_rotate h hr' (.inr rfl) 0
    | exit => exact Machine.step_exit h hr' rfl 0
    | resume => exact Machine.step_resume h hr' rfl 0
    | call c => exact Machine.step_sync h hr' rfl hfit 0
    | fork isUser loads =>
      rcases Machine.step_fork h hr' rfl 0 with ⟨hnone, _⟩ | ⟨p, k0, _, hf, _, hok⟩
      · cases hnone.symm.trans hs
      · have hcard := ho.nfreepages
        have hlive := h.card_live
        have hfit : 2 * (PROCESS_MAX_PROCS + 1) ≤ n + 2 * (m.queue .freepcbs).length :=
          of_decide_eq_true hfit
        obtain ⟨k1, hk1⟩ := (ho.frozen hf fun _ => Iff.rfl).fork
          (by rw [hf.mem]; omega) p
        exact hok k1 hk1
  rw [hs] at hgoes
  obtain ⟨m', hf⟩ := hgoes
  exact ⟨m', ⟨hr', hf.run⟩, hf.system⟩

/-- The machine runs through the events as the system does. -/
theorem Owned.exec_run (es : List Event) : ∀ {m : Machine} {holder : Nat → Option Pid}
    {ms : List (Move System (Event × Return))} {d : System}, Good m →
    Owned b m.kernel (fun p => p ∉ m.queue .freepcbs) holder → n ≤ b.pages.card →
    System.exec n es m.system = some (ms, d) →
    ∃ tr m', Run Machine.Step m tr m' ∧ systemMoves tr = ms ∧ m'.system = d := by
  induction es with
  | nil =>
    intro m holder ms d _ _ _ hex
    obtain ⟨rfl, rfl⟩ := Prod.mk.inj (Option.some.inj hex)
    exact ⟨[], m, .nil, rfl, rfl⟩
  | cons e es ih =>
    intro m holder ms d hg ho hn hex
    rw [System.exec] at hex
    split at hex
    · rename_i hok
      obtain ⟨⟨a1, r⟩, hs, hmap⟩ := Option.bind_eq_some_iff.mp hex
      obtain ⟨⟨ms1, d1⟩, hex1, he⟩ := Option.map_eq_some_iff.mp hmap
      obtain ⟨rfl, rfl⟩ := Prod.mk.inj he
      obtain ⟨m1, hs1, hsys1⟩ := Owned.step_exists hg ho hn hok.1 hok.2 hs
      have hshare : e ≠ .call .shareCreatePage := by
        rintro rfl
        cases hok.2
      obtain ⟨holder1, ho1⟩ := Owned.step hg hs1 ho hshare
      obtain ⟨tr, m', hrun, hms, hsys⟩ := ih (hg.step hs1).2.good ho1 hn (by rw [hsys1]; exact hex1)
      exact ⟨_, m', hrun.cons hs1, by simp [systemMoves, hsys1, ← hms], hsys⟩
    · cases hex

/-- A run of the system from its start is a run of the machine. -/
theorem boot_run (hn : n ≤ b.pages.card) (hex : System.start.exec n es = some (ms, d)) :
    ∃ m0 tr m, boot b = .ok m0 ∧ Run Machine.Step m0 tr m ∧ systemMoves tr = ms ∧
      m.system = d := by
  obtain ⟨m0, hb, hgood, hsys, _⟩ := boot_good b
  obtain ⟨tr, m, hrun, hms, hd⟩ := Owned.exec_run es hgood (.start hb) hn (hsys ▸ hex)
  exact ⟨m0, tr, m, hb, hrun, hms, hd⟩

/-- A machine of two megabytes, whose kernel ends in the second page. -/
def Boot.small : Boot where
  memsize := 0x200000
  lastosaddress := 0x1f000
  memsize_lt := by decide
  os_ge := by decide
  os_lt := by decide

theorem Boot.small_pages : Boot.small.pages.card = 30 := by
  simp [Boot.pages, Boot.small, pagestart, maxpage, MEMORY_PAGE_SIZE]

/-- What can be computed of a run of the system holds of a run of the
machine. -/
theorem exists_run (es : List Event) (Q : List (Move System (Event × Return)) → System → Prop)
    [∀ ms d, Decidable (Q ms d)]
    (h : (System.start.exec 30 es).any (fun x => Q x.1 x.2) = true) :
    ∃ m0 tr m, boot Boot.small = .ok m0 ∧ Run Machine.Step m0 tr m ∧
      Q (systemMoves tr) m.system := by
  rcases hex : System.start.exec 30 es with _ | ⟨ms, d⟩
  · simp [hex] at h
  · obtain ⟨m0, tr, m, hb, hr, hms, hd⟩ := boot_run (Nat.le_of_eq Boot.small_pages.symm) hex
    exact ⟨m0, tr, m, hb, hr, by simpa [hex, hms, hd] using h⟩

theorem exists_reachable (es : List Event) (Q : System → Prop) [DecidablePred Q]
    (h : (System.start.exec 30 es).any (fun x => Q x.2) = true) :
    ∃ m, Reachable m ∧ Q m.system := by
  obtain ⟨m0, tr, m, hb, hr, hq⟩ := exists_run es (fun _ d => Q d) h
  exact ⟨m, ⟨_, m0, tr, hb, hr⟩, hq⟩

/-- A run that is computed, from one of its steps on. -/
theorem exists_run_after (n : Nat) (es : List Event) (x : Event × Return)
    (Q : List (Move System (Event × Return)) → System → Prop) [∀ ms d, Decidable (Q ms d)]
    (h : (System.start.exec 30 es).any
      (fun y => (y.1[n]?.map fun mv => mv.label) = some x ∧ Q (y.1.drop (n + 1)) y.2) = true) :
    ∃ m0 level m1 tr m, Reachable m0 ∧ m0.Step (⟨x.1, level⟩, x.2) m1 ∧
      Run Machine.Step m1 tr m ∧ Q (systemMoves tr) m.system := by
  obtain ⟨m0, tr, m, hb, hr, hx, hq⟩ := exists_run es
    (fun ms d => (ms[n]?.map fun mv => mv.label) = some x ∧ Q (ms.drop (n + 1)) d) h
  have hn : n < tr.length := by
    by_contra hn
    rw [List.getElem?_eq_none (by simpa [systemMoves] using hn)] at hx
    cases hx
  have hsplit : tr = tr.take n ++ tr[n] :: tr.drop (n + 1) := by simp
  rw [hsplit] at hr
  obtain ⟨t, hr1, hr2⟩ := hr.split
  obtain ⟨_, hs, hr3⟩ := hr2.uncons
  have hlabel : (tr[n].label.1.event, tr[n].label.2) = x := by
    simpa [systemMoves, List.getElem?_eq_getElem hn] using hx
  subst hlabel
  refine ⟨t, tr[n].label.1.level, tr[n].post, tr.drop (n + 1), m, ⟨_, m0, _, hb, hr1⟩, hs, hr3, ?_⟩
  simpa [systemMoves, List.map_drop] using hq

/-! ## Machines with enough memory -/

/-- The pages are owned, and there are enough of them. -/
structure Roomy (b : Boot) (n : Nat) (m : Machine) : Prop where
  good : Good m
  owned : ∃ holder, Owned b m.kernel (fun p => p ∉ m.queue .freepcbs) holder
  pages : n ≤ b.pages.card

/-- The machine enters the kernel as the system does. -/
theorem Roomy.enter (h : Roomy b n m) (hr : m.system.Ready e) (hfit : m.system.fits n e = true)
    (hs : m.system.step 0 e = some (d, r)) :
    ∃ m', m.Step (⟨e, 0⟩, r) m' ∧ m'.system = d ∧ Roomy b n m' := by
  obtain ⟨holder, ho⟩ := h.owned
  obtain ⟨m', hm, hd⟩ := Owned.step_exists h.good ho h.pages hr hfit hs
  have hshare : e ≠ .call .shareCreatePage := by
    rintro rfl
    cases hfit
  exact ⟨m', hm, hd, (h.good.step hm).2.good, Owned.step h.good hm ho hshare, h.pages⟩

/-- A machine with enough pages, after the events. -/
theorem exists_roomy (es : List Event) (Q : System → Prop) [DecidablePred Q]
    (h : (System.start.exec 30 es).any
      (fun x => (∀ mv ∈ x.1, mv.label.1 ≠ .call .shareCreatePage) ∧ Q x.2) = true) :
    ∃ m, Reachable m ∧ Q m.system ∧ Roomy Boot.small 30 m := by
  obtain ⟨m0, tr, m, hb, hr, hshare, hq⟩ := exists_run es
    (fun ms d => (∀ mv ∈ ms, mv.label.1 ≠ .call .shareCreatePage) ∧ Q d) h
  have hreach : Reachable m := ⟨_, m0, tr, hb, hr⟩
  refine ⟨m, hreach, hq, hreach.good, ?_, Nat.le_of_eq Boot.small_pages.symm⟩
  exact Owned.run hb hr fun mv hmv => hshare _ (List.mem_map_of_mem hmv)

end dlxos
