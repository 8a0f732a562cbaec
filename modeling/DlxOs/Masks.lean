-- What the routines of the kernel do to the interrupt level. Most of them
-- leave it alone. Those that write shared structures rely on a caller that
-- has disabled interrupts, and such a caller gives back the level at its end.
import DlxOs.ProcessSpecs
import DlxOs.Synch

namespace dlxos

open Function

variable {α β : Type} {k k' : Kernel} {i : Level}

/-! ## Routines without protection -/

/-- The routine leaves the interrupt level alone, and it writes nothing that
interrupt handlers share. -/
def Calm (x : K α) : Prop :=
  ∀ k r k', x k = .ok (r, k') → k'.intrs = k.intrs ∧ k'.exposed = k.exposed

theorem Calm.value (a : α) : Calm (pure a : K α) := by
  rintro k r k' ⟨⟩
  exact ⟨rfl, rfl⟩

theorem Calm.read : Calm K.read := by
  rintro k r k' ⟨⟩
  exact ⟨rfl, rfl⟩

theorem Calm.halt (x : Halt) : Calm (K.halt x : K α) := by
  rintro k r k' ⟨⟩

theorem Calm.write {f : Kernel → Kernel}
    (hf : ∀ k, (f k).intrs = k.intrs ∧ (f k).exposed = k.exposed) : Calm (K.write f) := by
  rintro k r k' ⟨⟩
  exact hf k

theorem Calm.bind {x : K α} {f : α → K β} (hx : Calm x) (hf : ∀ a, Calm (f a)) :
    Calm (x >>= f) := by
  intro k r k' h
  obtain ⟨a, k1, h1, h2⟩ := K.bind_eq_ok h
  obtain ⟨hi1, he1⟩ := hx k a k1 h1
  obtain ⟨hi2, he2⟩ := hf a k1 r k' h2
  exact ⟨hi2.trans hi1, he2.trans he1⟩

theorem Calm.ite {b : Prop} [Decidable b] {x y : K α} (hx : Calm x) (hy : Calm y) :
    Calm (if b then x else y) := by
  split
  · exact hx
  · exact hy

theorem Calm.deref (o : Option α) : Calm (deref o) := by
  cases o with
  | none => exact .halt _
  | some a => exact .value a

theorem Calm.setPcb (p : Pid) (f : PCB → PCB) : Calm (setPcb p f) :=
  .write fun _ => ⟨rfl, rfl⟩

theorem Calm.setPcbLink (p : Pid) (l : Option LinkId) : Calm (setPcbLink p l) :=
  .write fun _ => ⟨rfl, rfl⟩

theorem Calm.queueEmpty (q : KQueue) : Calm (queueEmpty q) := by
  rintro k r k' ⟨⟩
  exact ⟨rfl, rfl⟩

theorem Calm.firstObject (q : KQueue) : Calm (firstObject q) :=
  .bind .read fun _ => .bind (.deref _) fun _ => .deref _

theorem Calm.GetCurrentPid : Calm GetCurrentPid := .bind .read fun _ => .deref _

theorem Calm.exitsim (line : String) : Calm (exitsim line : K α) := .halt _

/-- A test that ends the simulation, at the end of a routine. -/
theorem Calm.fatal {b : Prop} [Decidable b] (line : String) :
    Calm (if b then dlxos.exitsim line else pure () : K Unit) :=
  .ite (.exitsim line) (.value ())

/-- A test that ends the simulation, before the rest of a routine. -/
theorem Calm.stop {b : Prop} [Decidable b] {line : String} {f : Unit → K α} (h : Calm (f ())) :
    Calm (if b then dlxos.exitsim line >>= f else f ()) := by
  refine .ite ?_ h
  rintro k r k' ⟨⟩

theorem Calm.printf (line : String) : Calm (printf line) := .write fun _ => ⟨rfl, rfl⟩

theorem Calm.ASSERT (b : Bool) (line : String) : Calm (ASSERT b line) :=
  .ite (.value ()) (.printf line)

theorem Calm.allocPage : Calm allocPage := by
  intro k r k' h
  unfold dlxos.allocPage at h
  split at h
  · cases h
  · cases h
    exact ⟨rfl, rfl⟩

theorem Calm.freePage (page : Nat) : Calm (freePage page) := .write fun _ => ⟨rfl, rfl⟩

theorem Calm.freePte (pte : Word) : Calm (freePte pte) := .write fun _ => ⟨rfl, rfl⟩

theorem Calm.setShared (i : Fin MEMORY_MAX_SHARED_PAGES) (v : SharedPage) :
    Calm (setShared i v) := .write fun _ => ⟨rfl, rfl⟩

theorem Calm.forkMemory (p : Pid) : Calm (forkMemory p) := by
  unfold dlxos.forkMemory
  refine .bind (.setPcb p _) fun _ => .bind .allocPage fun _ => .stop ?_
  refine .bind (.setPcb p _) fun _ => .bind .allocPage fun _ => .stop ?_
  exact .setPcb p _

/-! ## Routines with protection -/

/-- Where interrupts are disabled, the routine writes under that protection,
and `P` holds at its end. -/
def Masks (P : α → Kernel → Prop) (x : K α) : Prop :=
  ∀ k r k', k.intrs = 15 → x k = .ok (r, k') → P r k' ∧ k'.exposed = k.exposed

/-- Interrupts stay disabled. -/
def Disabled (_ : α) (k : Kernel) : Prop := k.intrs = 15

theorem Calm.disabled {x : K α} (hx : Calm x) : Masks Disabled x := by
  intro k r k' hk h
  obtain ⟨hi, he⟩ := hx k r k' h
  exact ⟨hi.trans hk, he⟩

theorem Masks.value {P : α → Kernel → Prop} {a : α} (h : ∀ k, k.intrs = 15 → P a k) :
    Masks P (pure a : K α) := by
  rintro k r k' hk ⟨⟩
  exact ⟨h _ hk, rfl⟩

theorem Masks.bind {P : β → Kernel → Prop} {x : K α} {f : α → K β} (hx : Masks Disabled x)
    (hf : ∀ a, Masks P (f a)) : Masks P (x >>= f) := by
  intro k r k' hk h
  obtain ⟨a, k1, h1, h2⟩ := K.bind_eq_ok h
  obtain ⟨hi1, he1⟩ := hx k a k1 hk h1
  obtain ⟨hp, he2⟩ := hf a k1 r k' hi1 h2
  exact ⟨hp, he2.trans he1⟩

theorem Masks.ite {P : α → Kernel → Prop} {b : Prop} [Decidable b] {x y : K α} (hx : Masks P x)
    (hy : Masks P y) : Masks P (if b then x else y) := by
  split
  · exact hx
  · exact hy

theorem Masks.stop {P : α → Kernel → Prop} {b : Prop} [Decidable b] {line : String}
    {f : Unit → K α} (h : Masks P (f ())) :
    Masks P (if b then exitsim line >>= f else f ()) := by
  refine .ite ?_ h
  rintro k r k' _ ⟨⟩

/-- The last lines of a routine. -/
theorem Masks.restore {P : α → Kernel → Prop} {a : α} (h : ∀ k, k.intrs = i → P a k) :
    Masks P (do let _ ← RestoreIntrs i; return a : K α) := by
  rintro k r k' hk ⟨⟩
  exact ⟨h _ rfl, rfl⟩

/-- The rest of a routine, after it gives back the level. -/
theorem Masks.leave {x : K α} (hx : Calm x) :
    Masks (fun _ k => k.intrs = i) (RestoreIntrs i >>= fun _ => x) := by
  intro k r k' _ hrun
  exact hx (k.withIntrs i) r k' hrun

theorem Masks.still : Masks Disabled (RestoreIntrs 15) := by
  rintro k r k' _ ⟨⟩
  exact ⟨rfl, rfl⟩

/-- A routine that disables interrupts first. -/
theorem Masks.enter {P : Level → α → Kernel → Prop} {f : Level → K α} {a : α}
    (h : ∀ i, Masks (P i) (f i)) (hrun : (DisableIntrs >>= f) k = .ok (a, k')) :
    P k.intrs a k' ∧ k'.exposed = k.exposed := by
  rw [DisableIntrs, K.bind_ok (SetIntrs_run 15 k)] at hrun
  exact h k.intrs (k.withIntrs 15) a k' rfl hrun

/-- A part between `DisableIntrs` and `RestoreIntrs` gives back the level. -/
theorem Calm.protect {f : Level → K α} (h : ∀ i, Masks (fun _ k => k.intrs = i) (f i)) :
    Calm (DisableIntrs >>= f) :=
  fun _ _ _ hrun => Masks.enter h hrun

/-- The protection of a routine inside that of another one. -/
theorem Masks.protect {P : α → Kernel → Prop} {f : Level → K α} (h : Masks P (f 15)) :
    Masks P (DisableIntrs >>= f) := by
  intro k r k' hk hrun
  rw [DisableIntrs, K.bind_ok (SetIntrs_run 15 k), hk] at hrun
  exact h (k.withIntrs 15) r k' rfl hrun

theorem Masks.queue (f : Store KQueue Pid → α × Store KQueue Pid) : Masks Disabled (K.queue f) := by
  rintro k r k' hk ⟨⟩
  refine ⟨hk, ?_⟩
  change (k.exposed || k.intrs != 15) = k.exposed
  rw [hk]
  simp

theorem Masks.share {f : Kernel → Kernel}
    (hf : ∀ k, (f k).intrs = k.intrs ∧ (f k).exposed = k.exposed) : Masks Disabled (K.share f) := by
  rintro k r k' hk ⟨⟩
  obtain ⟨hi, he⟩ := hf { k with exposed := k.exposed || k.intrs != 15 }
  refine ⟨hi.trans hk, he.trans ?_⟩
  simp [hk]

theorem Masks.setSem (s : SemId) (f : Sem → Sem) : Masks Disabled (setSem s f) :=
  .share fun _ => ⟨rfl, rfl⟩

theorem Masks.setLock (l : LockId) (f : Lock → Lock) : Masks Disabled (setLock l f) :=
  .share fun _ => ⟨rfl, rfl⟩

theorem Masks.setCond (c : CondId) (f : Cond → Cond) : Masks Disabled (setCond c f) :=
  .share fun _ => ⟨rfl, rfl⟩

theorem Masks.allocPcbLink (p : Pid) (line : String) : Masks Disabled (allocPcbLink p line) :=
  .bind (.queue _) fun l => .bind (Calm.setPcbLink p l).disabled fun _ => (Calm.fatal line).disabled

theorem Masks.removePcbLink (p : Pid) (line : String) : Masks Disabled (removePcbLink p line) :=
  .bind Calm.read.disabled fun _ => .bind (.queue _) fun x =>
    .bind (Calm.setPcbLink p x.2).disabled fun _ => (Calm.fatal line).disabled

theorem Masks.insertPcbLast (q : KQueue) (p : Pid) (line : String) :
    Masks Disabled (insertPcbLast q p line) :=
  .bind Calm.read.disabled fun _ => .bind (.queue _) fun _ => (Calm.fatal line).disabled

theorem Masks.waitOn (q : KQueue) (noLink noInsert : String) :
    Masks Disabled (waitOn q noLink noInsert) :=
  .bind Calm.GetCurrentPid.disabled fun _ => .bind (.queue _) fun _ =>
    .stop (.bind (.queue _) fun _ => (Calm.fatal noInsert).disabled)

theorem Masks.takeFirst (q : KQueue) (noRemove : String) : Masks Disabled (takeFirst q noRemove) :=
  .bind (Calm.firstObject q).disabled fun _ => .bind (.queue _) fun _ =>
    .stop (.value fun _ => id)

/-! ## The memory of a process -/

theorem Calm.MemoryFreeSharedPte (p : Pid) (i : Nat) : Calm (MemoryFreeSharedPte p i) := by
  unfold dlxos.MemoryFreeSharedPte
  refine .protect fun intrs => .bind Calm.read.disabled fun k => ?_
  refine .bind (Calm.deref _).disabled fun pte => .stop ?_
  split
  · exact .restore fun _ => id
  · refine .bind (Calm.setShared _ _).disabled fun _ => ?_
    refine .bind (Calm.setPcb p _).disabled fun _ => .ite ?_ (.restore fun _ => id)
    exact .bind (Calm.freePage _).disabled fun _ => .restore fun _ => id

theorem Calm.freeSharedPtes (p : Pid) (is : List Nat) : Calm (freeSharedPtes p is) := by
  induction is with
  | nil => exact .value ()
  | cons i is ih => exact .bind (.MemoryFreeSharedPte p i) fun _ => ih

theorem Calm.freePtes (p : Pid) (is : List Nat) : Calm (freePtes p is) := by
  induction is with
  | nil => exact .value ()
  | cons i is ih =>
    exact .bind .read fun _ => .bind (.deref _) fun _ => .bind (.freePte _) fun _ => ih

theorem Calm.freeMemory (p : Pid) : Calm (freeMemory p) :=
  .bind .read fun _ => .bind (.freeSharedPtes p _) fun _ => .bind .read fun _ =>
    .bind (.freePtes p _) fun _ => .bind .read fun _ => .freePage _

theorem Masks.ProcessFreeResources (p : Pid) : Masks Disabled (ProcessFreeResources p) := by
  unfold dlxos.ProcessFreeResources
  refine .bind (.allocPcbLink p _) fun _ => .bind (Calm.setPcb p _).disabled fun _ => ?_
  refine .bind (.insertPcbLast _ p _) fun _ => .bind (Calm.freeMemory p).disabled fun _ => ?_
  exact (Calm.setPcb p _).disabled

/-! ## Sleeping and waking -/

theorem Masks.reapZombies (fuel : Nat) : Masks Disabled (reapZombies fuel) := by
  induction fuel with
  | zero => exact (Calm.halt _).disabled
  | succ fuel ih =>
    refine .bind (Calm.queueEmpty _).disabled fun _ => .ite (Calm.value ()).disabled ?_
    refine .bind (Calm.firstObject _).disabled fun p => .bind (.removePcbLink p _) fun _ => ?_
    exact .bind (.ProcessFreeResources p) fun _ => ih

theorem Masks.ProcessSchedule (suspendFlag : Bool) :
    Masks Disabled (ProcessSchedule suspendFlag) := by
  unfold dlxos.ProcessSchedule
  refine .bind (Calm.queueEmpty _).disabled fun _ => .ite ?_ ?_
  · refine .bind (Calm.queueEmpty _).disabled fun _ => .stop (Calm.exitsim _).disabled
  · refine .ite (.bind (.queue _) fun _ => ?_) ?_
    all_goals
      refine .bind (Calm.firstObject _).disabled fun p => .bind ?_ fun _ => .reapZombies _
      refine Calm.disabled ?_
      exact .write fun _ => ⟨rfl, rfl⟩

theorem Masks.ProcessSuspend (p : Pid) : Masks Disabled (ProcessSuspend p) := by
  unfold dlxos.ProcessSuspend
  refine .bind Calm.read.disabled fun _ => .bind (Calm.ASSERT _ _).disabled fun _ => ?_
  refine .bind (Calm.setPcb p _).disabled fun _ => .bind (.removePcbLink p _) fun _ => ?_
  exact .bind (.allocPcbLink p _) fun _ => .insertPcbLast _ p _

theorem Masks.ProcessWakeup (p : Pid) : Masks Disabled (ProcessWakeup p) := by
  unfold dlxos.ProcessWakeup
  refine .bind Calm.read.disabled fun _ => .bind (Calm.ASSERT _ _).disabled fun _ => ?_
  refine .bind (Calm.setPcb p _).disabled fun _ => .bind (.removePcbLink p _) fun _ => ?_
  exact .bind (.allocPcbLink p _) fun _ => .insertPcbLast _ p _

theorem Masks.ProcessSleep : Masks Disabled ProcessSleep :=
  .bind Calm.GetCurrentPid.disabled fun p => .bind (.ProcessSuspend p) fun _ =>
    .ProcessSchedule true

theorem Masks.wakeAll (c : CondId) (fuel : Nat) : Masks Disabled (wakeAll c fuel) := by
  induction fuel with
  | zero => exact (Calm.halt _).disabled
  | succ fuel ih =>
    refine .bind (Calm.queueEmpty _).disabled fun _ => .ite (Calm.value ()).disabled ?_
    exact .bind (.takeFirst _ _) fun p => .bind (.ProcessWakeup p) fun _ => ih

end dlxos
