-- The laws of the open files. `FsOpen` gives out the first free slot, which is
-- slot 0 at first, and `FdValid` takes descriptor 0 for none.
import DlxOs.FileSys
import Mathlib.Data.Finset.Image

namespace dlxos

open Function

variable {H : Type} {host : Host H} {s : FsState H} {fd : Int} {name : List Byte} {mode : Word}

/-! ## One call -/

@[simp] theorem setFs_flags (i x : FsSlot) (v : Fin 2) :
    ((s.setFs i v).openfiles x).flags = (s.openfiles x).flags := by
  unfold FsState.setFs
  by_cases hx : x = i
  · subst hx
    simp
  · simp [hx]

@[simp] theorem setU_flags (i x : FsSlot) (v : Int) :
    ((s.setU i v).openfiles x).flags = (s.openfiles x).flags := by
  unfold FsState.setU
  by_cases hx : x = i
  · subst hx
    simp
  · simp [hx]

theorem setFs_fs (i : FsSlot) (v : Fin 2) : ((s.setFs i v).openfiles i).fs = v := by
  unfold FsState.setFs
  simp

theorem setFlags_flags (i x : FsSlot) (v : Word) :
    ((s.setFlags i v).openfiles x).flags = if x = i then v else (s.openfiles x).flags := by
  unfold FsState.setFlags
  by_cases hx : x = i
  · subst hx
    simp
  · simp [hx]

/-- `FsOpen` comes to no file, whatever the table holds: the mode has no mode bit,
or the host does not open the file. -/
def Refused (host : Host H) (name : List Byte) (mode : Word) (s : FsState H) : Prop :=
  mode &&& FS_MODE_RW = 0 ∨
    isDlxName name = false ∧ (host.openFile name (mode &&& FS_MODE_RW) s.host).1 < 0

/-- The first free slot. -/
def freeSlot (s : FsState H) : Option FsSlot :=
  (List.finRange FS_MAX_OPEN_FILES).find? fun i => (s.openfiles i).flags == 0

theorem freeSlot_free {i : FsSlot} (h : freeSlot s = some i) : (s.openfiles i).flags = 0 := by
  have := List.find?_some h
  simpa using this

/-- The whole table is as before, but that slot `i` is now in use. -/
structure Opened (s s' : FsState H) (i : FsSlot) : Prop where
  was : (s.openfiles i).flags = 0
  now : (s'.openfiles i).flags ≠ 0
  others : ∀ x, x ≠ i → s'.openfiles x = s.openfiles x

theorem slots_congr {s' : FsState H} {x : FsSlot} (h : s'.openfiles x = s.openfiles x) :
    s'.slots x = s.slots x := by
  unfold FsState.slots
  rw [h]

theorem slots_free {x : FsSlot} (h : (s.openfiles x).flags = 0) : s.slots x = none := if_pos h

theorem FsOpen_full (h : freeSlot s = none) :
    FsOpen host name mode s = (-1, s) := by
  unfold freeSlot at h
  unfold FsOpen
  simp only [h]
  split_ifs <;> rfl

theorem FsOpen_dlx {i : FsSlot} (hm : mode &&& FS_MODE_RW ≠ 0) (h : freeSlot s = some i)
    (hname : isDlxName name = true) : FsOpen host name mode s =
      ((i : Int), ((s.setFlags i (mode &&& FS_MODE_RW)).setFs i 1).setU i 0) := by
  unfold freeSlot at h
  unfold FsOpen
  simp only [if_neg hm, h, hname, if_true, setFs_fs, fs, FsDlxOpen]
  rfl

/-- The state after the host's answer to an open. -/
def unixOpened (host : Host H) (name : List Byte) (mode : Word) (i : FsSlot) (s : FsState H) :
    FsState H :=
  { (s.setFlags i mode).setFs i 0 with host := (host.openFile name mode s.host).2 }.setU i
    (host.openFile name mode s.host).1

theorem FsOpen_unix {i : FsSlot} (hm : mode &&& FS_MODE_RW ≠ 0) (h : freeSlot s = some i)
    (hname : isDlxName name = false) : FsOpen host name mode s =
      if (host.openFile name (mode &&& FS_MODE_RW) s.host).1 < 0 then
        ((host.openFile name (mode &&& FS_MODE_RW) s.host).1,
          FsFreeEntry i (unixOpened host name (mode &&& FS_MODE_RW) i s))
      else ((i : Int), unixOpened host name (mode &&& FS_MODE_RW) i s) := by
  unfold freeSlot at h
  unfold FsOpen
  simp only [if_neg hm, h, hname, Bool.false_eq_true, if_false, setFs_fs, fs, FsUnixOpen]
  unfold unixOpened
  by_cases hfd : (host.openFile name (mode &&& FS_MODE_RW) s.host).1 < 0
  · have hfd' : (host.openFile name (mode &&& FS_MODE_RW)
        ((s.setFlags i (mode &&& FS_MODE_RW)).setFs i 0).host).1 < 0 := hfd
    simp only [if_pos hfd, if_pos hfd']
    rfl
  · have hfd' : ¬ (host.openFile name (mode &&& FS_MODE_RW)
        ((s.setFlags i (mode &&& FS_MODE_RW)).setFs i 0).host).1 < 0 := hfd
    simp only [if_neg hfd, if_neg hfd']
    rfl

theorem unixOpened_flags (i x : FsSlot) :
    ((unixOpened host name mode i s).openfiles x).flags =
      if x = i then mode else (s.openfiles x).flags := by
  unfold unixOpened
  rw [setU_flags]
  exact (setFs_flags _ _ _).trans (setFlags_flags _ _ _)

theorem unixOpened_others {i x : FsSlot} (hx : x ≠ i) :
    (unixOpened host name mode i s).openfiles x = s.openfiles x := by
  simp [unixOpened, FsState.setU, FsState.setFs, FsState.setFlags, hx]

theorem FsOpen.refused (h : Refused host name mode s) :
    (FsOpen host name mode s).1 < 0 ∧ ∀ x, (FsOpen host name mode s).2.slots x = s.slots x := by
  by_cases hm : mode &&& FS_MODE_RW = 0
  · unfold FsOpen
    simp [hm]
  obtain ⟨hname, hhost⟩ := h.resolve_left hm
  rcases hfree : freeSlot s with _ | i
  · rw [FsOpen_full hfree]
    simp
  · rw [FsOpen_unix hm hfree hname, if_pos hhost]
    refine ⟨hhost, fun x => ?_⟩
    by_cases hx : x = i
    · subst hx
      rw [slots_free (freeSlot_free hfree)]
      refine slots_free ?_
      unfold FsFreeEntry
      rw [setFlags_flags, if_pos rfl]
    · refine slots_congr ?_
      simp only [FsFreeEntry, FsState.setFlags, update_of_ne hx]
      exact unixOpened_others hx

theorem FsOpen.opens {i : FsSlot} (h : ¬ Refused host name mode s) (hfree : freeSlot s = some i) :
    (FsOpen host name mode s).1 = i ∧ Opened s (FsOpen host name mode s).2 i := by
  unfold Refused at h
  push Not at h
  obtain ⟨hm, hhost⟩ := h
  have hwas := freeSlot_free hfree
  rcases hname : isDlxName name with _ | _
  · rw [FsOpen_unix hm hfree hname, if_neg (Int.not_lt.mpr (hhost hname))]
    refine ⟨rfl, hwas, ?_, fun x hx => unixOpened_others hx⟩
    rw [unixOpened_flags, if_pos rfl]
    exact hm
  · rw [FsOpen_dlx hm hfree hname]
    refine ⟨rfl, hwas, ?_, fun x hx => ?_⟩
    · rw [setU_flags, setFs_flags, setFlags_flags, if_pos rfl]
      exact hm
    · simp [FsState.setU, FsState.setFs, FsState.setFlags, hx]

theorem FsOpen.cases (host : Host H) (name : List Byte) (mode : Word) (s : FsState H) :
    ((FsOpen host name mode s).1 < 0 ∧
        ∀ x, (FsOpen host name mode s).2.slots x = s.slots x) ∨
      ∃ i : FsSlot, freeSlot s = some i ∧ (FsOpen host name mode s).1 = i ∧
        Opened s (FsOpen host name mode s).2 i := by
  by_cases href : Refused host name mode s
  · exact .inl (FsOpen.refused href)
  rcases hfree : freeSlot s with _ | i
  · rw [FsOpen_full hfree]
    exact .inl ⟨Int.negSucc_lt_zero 0, fun _ => rfl⟩
  · obtain ⟨hret, hopened⟩ := FsOpen.opens href hfree
    exact .inr ⟨i, rfl, hret, hopened⟩

/-! The other routines leave the table alone. -/

theorem fs_Read (k : Fin 2) (x : FsSlot) (n : Int) :
    ((fs host k).Read x n s).2.openfiles = s.openfiles := by
  match k with
  | 0 => rfl
  | 1 => rfl

theorem fs_Write (k : Fin 2) (x : FsSlot) (buf : List Byte) (n : Int) :
    ((fs host k).Write x buf n s).2.openfiles = s.openfiles := by
  match k with
  | 0 => rfl
  | 1 => rfl

theorem fs_Seek (k : Fin 2) (x : FsSlot) (offset whence : Int) :
    ((fs host k).Seek x offset whence s).2.openfiles = s.openfiles := by
  match k with
  | 0 => rfl
  | 1 => rfl

theorem fs_Close (k : Fin 2) (x : FsSlot) : ((fs host k).Close x s).2.openfiles = s.openfiles := by
  match k with
  | 0 => rfl
  | 1 => rfl

theorem FsRead_table (n : Int) : (FsRead host fd n s).2.openfiles = s.openfiles := by
  unfold FsRead
  split_ifs
  · exact fs_Read _ _ _
  · rfl

theorem FsWrite_table (buf : List Byte) (n : Int) :
    (FsWrite host fd buf n s).2.openfiles = s.openfiles := by
  unfold FsWrite
  split_ifs
  · exact fs_Write _ _ _ _
  · rfl

theorem FsSeek_table (offset whence : Int) :
    (FsSeek host fd offset whence s).2.openfiles = s.openfiles := by
  unfold FsSeek
  split_ifs
  · exact fs_Seek _ _ _ _
  · rfl

theorem FsClose_table (h : FdValid fd s = true) :
    (FsClose host fd s).2.openfiles =
      update s.openfiles (slotOf fd) { s.openfiles (slotOf fd) with flags := 0 } := by
  unfold FsClose FsFreeEntry FsState.setFlags
  simp only [h, if_true, fs_Close]

/-! ## Runs -/

inductive FsCall where
  | openFile (name : List Byte) (mode : Word)
  | close (fd : Int)
  | read (fd n : Int)
  | write (fd : Int) (buf : List Byte) (n : Int)
  | seek (fd offset whence : Int)

def FsCall.run (host : Host H) (s : FsState H) : FsCall → Int × FsState H
  | .openFile name mode => FsOpen host name mode s
  | .close fd => FsClose host fd s
  | .read fd n => ((FsRead host fd n s).1.1, (FsRead host fd n s).2)
  | .write fd buf n => FsWrite host fd buf n s
  | .seek fd offset whence => FsSeek host fd offset whence s

/-- What the callers know: the descriptors that `FsOpen` gave them and that they
have not closed, how often an open succeeded, and what they closed. -/
structure Ledger where
  opened : Finset Int
  opens : Nat
  closed : List Int

/-- The ledger after a call that returned `ret`. -/
def Ledger.after (l : Ledger) (ret : Int) : FsCall → Ledger
  | .openFile _ _ =>
    if 0 ≤ ret then { l with opened := insert ret l.opened, opens := l.opens + 1 } else l
  | .close fd =>
    if fd ∈ l.opened then { l with opened := l.opened.erase fd, closed := fd :: l.closed } else l
  | _ => l

theorem after_openFile (l : Ledger) (ret : Int) (name : List Byte) (mode : Word) :
    l.after ret (.openFile name mode) =
      if 0 ≤ ret then { l with opened := insert ret l.opened, opens := l.opens + 1 } else l := rfl

theorem after_close (l : Ledger) (ret fd : Int) : l.after ret (.close fd) =
    if fd ∈ l.opened then { l with opened := l.opened.erase fd, closed := fd :: l.closed }
    else l := rfl

/-- The state and the ledger after the calls, from `FsModuleInit` on. -/
def fsRun (host : Host H) (s : FsState H) (calls : List FsCall) : FsState H × Ledger :=
  calls.foldl (fun r c => ((c.run host r.1).2, r.2.after (c.run host r.1).1 c))
    (FsModuleInit s, ⟨∅, 0, []⟩)

/-- The four calls on the descriptor reach the routine of its slot. -/
structure Serves (host : Host H) (s : FsState H) (d : Int) : Prop where
  valid : FdValid d s = true
  read : ∀ n, FsRead host d n s = (fs host (s.openfiles (slotOf d)).fs).Read (slotOf d) n s
  write : ∀ buf n, FsWrite host d buf n s =
    (fs host (s.openfiles (slotOf d)).fs).Write (slotOf d) buf n s
  seek : ∀ offset whence, FsSeek host d offset whence s =
    (fs host (s.openfiles (slotOf d)).fs).Seek (slotOf d) offset whence s
  close : (FsClose host d s).1 = ((fs host (s.openfiles (slotOf d)).fs).Close (slotOf d) s).1

/-- The four calls on the descriptor return -1 and do nothing. -/
structure Rejects (host : Host H) (s : FsState H) (d : Int) : Prop where
  read : ∀ n, FsRead host d n s = ((-1, []), s)
  write : ∀ buf n, FsWrite host d buf n s = (-1, s)
  seek : ∀ offset whence, FsSeek host d offset whence s = (-1, s)
  close : FsClose host d s = (-1, s)

theorem serves_iff {d : Int} : Serves host s d ↔ FdValid d s = true := by
  constructor
  · exact fun h => h.valid
  · intro h
    refine ⟨h, fun n => if_pos h, fun buf n => if_pos h, fun offset whence => if_pos h, ?_⟩
    unfold FsClose
    rw [if_pos h]

theorem rejects_of_invalid {d : Int} (h : FdValid d s = false) : Rejects host s d := by
  have hne : ¬ FdValid d s = true := by simp [h]
  exact ⟨fun n => if_neg hne, fun buf n => if_neg hne, fun offset whence => if_neg hne,
    if_neg hne⟩

/-- The law of the open files, for the descriptors `ds`. -/
structure FsLaw (host : Host H) (ds : Int → Bool) (s : FsState H) (l : Ledger) : Prop where
  accepted : ∀ d ∈ l.opened, ds d = true → Serves host s d
  rejected : ∀ d, d ∉ l.opened → Rejects host s d
  fresh : ∀ name mode, 0 ≤ (FsOpen host name mode s).1 → (FsOpen host name mode s).1 ∉ l.opened
  freed : ∀ d ∈ l.opened, ds d = true → (FsClose host d s).2.slots (slotOf d) = none ∧
    Rejects host (FsClose host d s).2 d
  failed : ∀ name mode, (FsOpen host name mode s).1 < 0 →
    ∀ x, (FsOpen host name mode s).2.slots x = s.slots x
  count : s.occupied + (l.closed.filter ds).length = l.opens

/-! ## The slots in use -/

theorem slotOf_slot (x : FsSlot) : slotOf (x : Int) = x := by
  unfold slotOf
  simp

theorem slot_slotOf {d : Int} (h0 : 0 ≤ d) (hd : d < FS_MAX_OPEN_FILES) : (slotOf d : Int) = d := by
  unfold slotOf
  have hval : (Fin.ofNat FS_MAX_OPEN_FILES d.toNat : Nat) = d.toNat % FS_MAX_OPEN_FILES := rfl
  rw [hval]
  simp only [FS_MAX_OPEN_FILES] at hd ⊢
  omega

theorem FdValid_iff {d : Int} :
    FdValid d s = true ↔ ∃ x : FsSlot, x ≠ 0 ∧ d = x ∧ (s.openfiles x).flags ≠ 0 := by
  unfold FdValid
  simp only [gt_iff_lt, Bool.and_eq_true, decide_eq_true_eq, bne_iff_ne]
  constructor
  · rintro ⟨⟨hpos, hlt⟩, hflags⟩
    have hd := slot_slotOf (Int.le_of_lt hpos) hlt
    refine ⟨slotOf d, fun h0 => ?_, hd.symm, hflags⟩
    rw [h0] at hd
    simp at hd
    omega
  · rintro ⟨x, hx, rfl, hflags⟩
    have hlt := x.isLt
    have hpos : (x : Nat) ≠ 0 := fun h0 => hx (Fin.ext h0)
    rw [slotOf_slot]
    exact ⟨⟨by omega, by omega⟩, hflags⟩

/-- The descriptors that are open are slots in use. A slot in use is an open
descriptor, but for slot 0, which `FsClose` never frees. -/
structure TableInv (s : FsState H) (l : Ledger) : Prop where
  opened : ∀ d ∈ l.opened, ∃ x : FsSlot, d = x ∧ (s.openfiles x).flags ≠ 0
  used : ∀ x : FsSlot, x ≠ 0 → (s.openfiles x).flags ≠ 0 → (x : Int) ∈ l.opened
  count : s.occupied + (l.closed.filter (· ≠ 0)).length = l.opens

variable {l : Ledger}

theorem TableInv.congr {s' : FsState H} (h : TableInv s l)
    (hs : ∀ x, (s'.openfiles x).flags = (s.openfiles x).flags) : TableInv s' l := by
  have hocc : s'.occupied = s.occupied := by
    unfold FsState.occupied
    simp only [hs]
  refine ⟨fun d hd => ?_, fun x hx hf => h.used x hx (hs x ▸ hf), hocc ▸ h.count⟩
  obtain ⟨x, hdx, hf⟩ := h.opened d hd
  exact ⟨x, hdx, (hs x).symm ▸ hf⟩

theorem flags_of_slots {s' : FsState H} {x : FsSlot} (h : s'.slots x = s.slots x) :
    (s'.openfiles x).flags = (s.openfiles x).flags := by
  unfold FsState.slots at h
  split_ifs at h with h1 h2
  · rw [h1, h2]
  · rw [Option.some.inj h]

theorem TableInv.openFile (h : TableInv s l) (host : Host H) (name : List Byte) (mode : Word) :
    TableInv (FsOpen host name mode s).2
      (l.after (FsOpen host name mode s).1 (.openFile name mode)) := by
  rw [after_openFile]
  rcases FsOpen.cases host name mode s with ⟨hneg, hslots⟩ | ⟨i, -, hret, hopened⟩
  · rw [if_neg (Int.not_le.mpr hneg)]
    exact h.congr fun x => flags_of_slots (hslots x)
  rw [hret, if_pos (Int.natCast_nonneg _)]
  have hocc : (FsOpen host name mode s).2.occupied = s.occupied + 1 := by
    unfold FsState.occupied
    have hinsert : (Finset.univ.filter fun x =>
        ((FsOpen host name mode s).2.openfiles x).flags ≠ 0) =
          insert i (Finset.univ.filter fun x => (s.openfiles x).flags ≠ 0) := by
      ext x
      by_cases hx : x = i
      · subst hx
        simpa using hopened.now
      · simp [hx, hopened.others x hx]
    rw [hinsert, Finset.card_insert_of_notMem (by simpa using hopened.was)]
  refine ⟨fun d hd => ?_, fun x hx hf => ?_, ?_⟩
  · rcases Finset.mem_insert.mp hd with rfl | hd
    · exact ⟨i, rfl, hopened.now⟩
    · obtain ⟨x, hdx, hf⟩ := h.opened d hd
      have hxi : x ≠ i := fun he => hf (he ▸ hopened.was)
      exact ⟨x, hdx, by rw [hopened.others x hxi]; exact hf⟩
  · by_cases hxi : x = i
    · simp [hxi]
    · rw [hopened.others x hxi] at hf
      exact Finset.mem_insert_of_mem (h.used x hx hf)
  · have := h.count
    simp only [hocc]
    omega

theorem occupied_close {d : Int} (hv : FdValid d s = true) :
    (FsClose host d s).2.occupied + 1 = s.occupied := by
  obtain ⟨x, -, rfl, hf⟩ := FdValid_iff.mp hv
  have htable := @FsClose_table _ host _ _ hv
  rw [slotOf_slot] at htable
  unfold FsState.occupied
  have herase : (Finset.univ.filter fun y => ((FsClose host x s).2.openfiles y).flags ≠ 0) =
      (Finset.univ.filter fun y => (s.openfiles y).flags ≠ 0).erase x := by
    ext y
    rw [htable]
    by_cases hy : y = x
    · subst hy
      simp
    · simp [hy]
  rw [herase, Finset.card_erase_add_one (by simpa using hf)]

theorem TableInv.close (h : TableInv s l) (host : Host H) (d : Int) :
    TableInv (FsClose host d s).2 (l.after (FsClose host d s).1 (.close d)) := by
  rw [after_close]
  by_cases hv : FdValid d s = true
  · obtain ⟨x, hx0, rfl, hf⟩ := FdValid_iff.mp hv
    have htable := @FsClose_table _ host _ _ hv
    rw [slotOf_slot] at htable
    have hocc := @occupied_close _ host _ _ hv
    rw [if_pos (h.used x hx0 hf)]
    have hxne : ((x : Nat) : Int) ≠ 0 := fun h0 => hx0 (Fin.ext (by simpa using h0))
    refine ⟨fun d hd => ?_, fun y hy hfy => ?_, ?_⟩
    · obtain ⟨hdx, hd⟩ := Finset.mem_erase.mp hd
      obtain ⟨y, rfl, hfy⟩ := h.opened d hd
      have hyx : y ≠ x := fun he => hdx (by rw [he])
      exact ⟨y, rfl, by rw [htable, update_of_ne hyx]; exact hfy⟩
    · rw [htable] at hfy
      have hyx : y ≠ x := by
        rintro rfl
        simp at hfy
      rw [update_of_ne hyx] at hfy
      exact Finset.mem_erase.mpr ⟨fun he => hyx (Fin.ext (by omega)), h.used y hy hfy⟩
    · have := h.count
      rw [List.filter_cons_of_pos (by simpa using hxne), List.length_cons]
      change _ = l.opens
      omega
  · have hsame : FsClose host d s = (-1, s) := if_neg hv
    rw [hsame]
    split_ifs with hd
    · -- the descriptor is 0, and nothing happens to its slot
      obtain ⟨x, rfl, hf⟩ := h.opened d hd
      have hx0 : x = 0 := by
        by_contra hx0
        exact hv (FdValid_iff.mpr ⟨x, hx0, rfl, hf⟩)
      subst hx0
      refine ⟨fun e he => h.opened e (Finset.mem_of_mem_erase he), fun y hy hfy => ?_, ?_⟩
      · refine Finset.mem_erase.mpr ⟨fun he => hy (Fin.ext ?_), h.used y hy hfy⟩
        simpa using he
      · rw [List.filter_cons_of_neg (by simp)]
        exact h.count
    · exact h

theorem TableInv.step (h : TableInv s l) (host : Host H) (c : FsCall) :
    TableInv (c.run host s).2 (l.after (c.run host s).1 c) := by
  cases c with
  | openFile name mode => exact h.openFile host name mode
  | close d => exact h.close host d
  | read d n => exact h.congr fun x => congrArg (fun t => (t x).flags) (FsRead_table n)
  | write d buf n => exact h.congr fun x => congrArg (fun t => (t x).flags) (FsWrite_table buf n)
  | seek d offset whence =>
    exact h.congr fun x => congrArg (fun t => (t x).flags) (FsSeek_table offset whence)

theorem TableInv.run (host : Host H) (s : FsState H) (calls : List FsCall) :
    TableInv (fsRun host s calls).1 (fsRun host s calls).2 := by
  induction calls using List.reverseRecOn with
  | nil => exact ⟨by simp [fsRun], by simp [fsRun, FsModuleInit], by
      simp [fsRun, FsModuleInit, FsState.occupied]⟩
  | append_singleton calls c ih =>
    unfold fsRun at ih ⊢
    rw [List.foldl_append]
    exact ih.step host c

/-! ## The law -/

/-- The law holds in every run, but for descriptor 0. -/
theorem TableInv.law (h : TableInv s l) (host : Host H) : FsLaw host (· ≠ 0) s l := by
  have hvalid : ∀ d ∈ l.opened, d ≠ 0 → FdValid d s = true := by
    intro d hd h0
    obtain ⟨x, rfl, hf⟩ := h.opened d hd
    exact FdValid_iff.mpr ⟨x, fun hx => h0 (by simp [hx]), rfl, hf⟩
  refine ⟨fun d hd h0 => ?_, fun d hd => ?_, fun name mode hpos => ?_, fun d hd h0 => ?_,
    fun name mode hneg => ?_, h.count⟩
  · exact serves_iff.mpr (hvalid d hd (by simpa using h0))
  · refine rejects_of_invalid (Bool.eq_false_iff.mpr fun hv => ?_)
    obtain ⟨x, hx, rfl, hf⟩ := FdValid_iff.mp hv
    exact hd (h.used x hx hf)
  · rcases FsOpen.cases host name mode s with ⟨hneg, -⟩ | ⟨i, -, hret, hopened⟩
    · omega
    · intro hin
      obtain ⟨x, hx, hf⟩ := h.opened _ hin
      rw [hret] at hx
      obtain rfl : i = x := Fin.ext (by omega)
      exact hf hopened.was
  · have hv := hvalid d hd (by simpa using h0)
    have htable := @FsClose_table _ host _ _ hv
    have hfree : ((FsClose host d s).2.openfiles (slotOf d)).flags = 0 := by
      rw [htable, update_self]
    refine ⟨slots_free hfree, rejects_of_invalid ?_⟩
    unfold FdValid
    rw [hfree]
    simp
  · rcases FsOpen.cases host name mode s with ⟨-, hslots⟩ | ⟨i, -, hret, -⟩
    · exact hslots
    · rw [hret] at hneg
      omega

/-- The calls up to here opened nothing. -/
structure AllFree (s : FsState H) (l : Ledger) : Prop where
  free : ∀ x, (s.openfiles x).flags = 0
  opened : l.opened = ∅
  opens : l.opens = 0
  closed : l.closed = []

theorem AllFree.law (h : AllFree s l) (hinv : TableInv s l) (host : Host H) :
    FsLaw host (fun _ => true) s l := by
  have hlaw := hinv.law host
  refine ⟨fun d hd => ?_, hlaw.rejected, hlaw.fresh, fun d hd => ?_, hlaw.failed, ?_⟩
  · rw [h.opened] at hd
    simp at hd
  · rw [h.opened] at hd
    simp at hd
  · have hcount := hinv.count
    rw [h.closed] at hcount ⊢
    exact hcount

theorem AllFree.freeSlot (h : AllFree s l) : freeSlot s = some 0 := by
  have hslots : List.finRange FS_MAX_OPEN_FILES =
      (0 : Fin 32) :: (List.finRange 31).map Fin.succ := List.finRange_succ
  unfold dlxos.freeSlot
  rw [hslots]
  exact List.find?_cons_of_pos (beq_iff_eq.mpr (h.free _))

/-- An open that is not refused, as the first one, gets descriptor 0, which no
call accepts. -/
theorem AllFree.breaks (h : AllFree s l) (href : ¬ Refused host name mode s) :
    ¬ FsLaw host (fun _ => true) ((FsCall.openFile name mode).run host s).2
      (l.after ((FsCall.openFile name mode).run host s).1 (.openFile name mode)) := by
  intro hlaw
  obtain ⟨hret, -⟩ := FsOpen.opens href h.freeSlot
  have hserves := hlaw.accepted 0 ?_ rfl
  · have hvalid := hserves.valid
    obtain ⟨x, hx, h0, -⟩ := FdValid_iff.mp hvalid
    exact hx (Fin.ext (by simpa using h0.symm))
  · rw [FsCall.run, hret, after_openFile, if_pos (Int.natCast_nonneg _)]
    simp

/-- No call to `FsOpen` but a refused one. -/
def FsCall.Refused (host : Host H) (s : FsState H) : FsCall → Prop
  | .openFile name mode => dlxos.Refused host name mode s
  | _ => True

theorem AllFree.same (h : AllFree s l) {s' : FsState H}
    (hs : s'.openfiles = s.openfiles) : AllFree s' l :=
  ⟨fun x => hs ▸ h.free x, h.opened, h.opens, h.closed⟩

theorem AllFree.step (h : AllFree s l) {c : FsCall} (hc : c.Refused host s) :
    AllFree (c.run host s).2 (l.after (c.run host s).1 c) := by
  cases c with
  | openFile name mode =>
    obtain ⟨hneg, hslots⟩ := FsOpen.refused hc
    simp only [FsCall.run]
    rw [after_openFile, if_neg (Int.not_le.mpr hneg)]
    exact ⟨fun x => (flags_of_slots (hslots x)).trans (h.free x), h.opened, h.opens, h.closed⟩
  | close d =>
    have hv : ¬ FdValid d s = true := fun hv => by
      obtain ⟨x, -, -, hf⟩ := FdValid_iff.mp hv
      exact hf (h.free x)
    have hsame : FsClose host d s = (-1, s) := if_neg hv
    simp only [FsCall.run]
    rw [hsame, after_close, if_neg (by simp [h.opened])]
    exact h
  | read d n => exact h.same (FsRead_table n)
  | write d buf n => exact h.same (FsWrite_table buf n)
  | seek d offset whence => exact h.same (FsSeek_table offset whence)

theorem fsRun_snoc (host : Host H) (s : FsState H) (calls : List FsCall) (c : FsCall) :
    fsRun host s (calls ++ [c]) = ((c.run host (fsRun host s calls).1).2,
      (fsRun host s calls).2.after (c.run host (fsRun host s calls).1).1 c) := by
  unfold fsRun
  rw [List.foldl_append]
  rfl

theorem AllFree.start (host : Host H) (s : FsState H) :
    AllFree (fsRun host s []).1 (fsRun host s []).2 := ⟨fun _ => rfl, rfl, rfl, rfl⟩

/-- The law holds in a run for as long as no open gets through: the first file is
opened as descriptor 0, which the other calls reject. For every other descriptor
it holds in every run. -/
theorem file_table_iff (host : Host H) (s : FsState H) (calls : List FsCall) :
    ((∀ pre, pre <+: calls →
        FsLaw host (fun _ => true) (fsRun host s pre).1 (fsRun host s pre).2) ↔
      ∀ pre c, pre ++ [c] <+: calls → c.Refused host (fsRun host s pre).1) ∧
    ∀ pre, pre <+: calls → FsLaw host (· ≠ 0) (fsRun host s pre).1 (fsRun host s pre).2 := by
  refine ⟨⟨fun hlaw => ?_, fun href => ?_⟩, fun pre _ => (TableInv.run host s pre).law host⟩
  · have hstep : ∀ pre c, pre ++ [c] <+: calls →
        AllFree (fsRun host s pre).1 (fsRun host s pre).2 →
          c.Refused host (fsRun host s pre).1 := by
      intro pre c hpre hun
      by_contra hc
      cases c with
      | openFile name mode =>
        have hbad := hlaw _ hpre
        rw [fsRun_snoc] at hbad
        exact hun.breaks hc hbad
      | _ => exact hc trivial
    have hall : ∀ pre, pre <+: calls → AllFree (fsRun host s pre).1 (fsRun host s pre).2 := by
      intro pre
      induction pre using List.reverseRecOn with
      | nil => exact fun _ => .start host s
      | append_singleton pre c ih =>
        intro hpre
        have hun := ih ((List.prefix_append pre [c]).trans hpre)
        rw [fsRun_snoc]
        exact hun.step (hstep pre c hpre hun)
    exact fun pre c hpre => hstep pre c hpre (hall pre ((List.prefix_append pre [c]).trans hpre))
  · intro pre hpre
    refine AllFree.law ?_ (TableInv.run host s pre) host
    induction pre using List.reverseRecOn with
    | nil => exact .start host s
    | append_singleton pre c ih =>
      rw [fsRun_snoc]
      exact (ih ((List.prefix_append pre [c]).trans hpre)).step (href pre c hpre)

/-- A host that opens every file as its file 3, and reads and writes nothing. -/
def easyHost : Host Unit where
  openFile _ _ h := (3, h)
  read _ _ h := ((0, []), h)
  write _ _ _ h := (0, h)
  lseek _ _ _ h := (0, h)
  close _ h := (0, h)
  read_stores _ _ _ := rfl
  read_le _ _ _ := Nat.zero_le _

/-- The first file, opened for reading. -/
theorem first_descriptor_is_rejected : ¬ ∀ (host : Host Unit) (s : FsState Unit)
    (calls : List FsCall),
    FsLaw host (fun _ => true) (fsRun host s calls).1 (fsRun host s calls).2 := by
  intro hall
  have href : ¬ Refused easyHost [118, 109] FS_MODE_READ
      (fsRun easyHost ⟨fun _ => ⟨0, 0, 0⟩, ()⟩ []).1 := by
    rintro (hm | ⟨-, hneg⟩)
    · exact absurd hm (by decide)
    · exact absurd hneg (by decide)
  refine (AllFree.start easyHost ⟨fun _ => ⟨0, 0, 0⟩, ()⟩).breaks href ?_
  exact hall easyHost ⟨fun _ => ⟨0, 0, 0⟩, ()⟩ [.openFile [118, 109] FS_MODE_READ]

end dlxos
