-- A fork of a user process that fails in the loader. By then it has taken a PCB,
-- a link, two pages and maybe a slot of the table of open files.
import DlxOs.LinkBudget
import DlxOs.FileTable
import DlxOs.Loader

namespace dlxos

open Function

variable {H : Type} {host : Host H} {k k' k1 k2 : Kernel} {s s' : FsState H} {m : Machine}
  {p : Pid} {ps : List Pid} {name stack : List Byte} {here fd v : Int} {page : Nat}
  {info : Option CodeInfo}

/-- `ProcessFork (func, param, name, 1)`, where `ProcessGetCodeInfo` gives the
descriptor. The table of open files is the one that this routine leaves, so it
is the last one of a fork that fails. -/
def forkUser (host : Host H) (name : List Byte) (here : Int) (stack : List Byte) (k : Kernel)
    (s : FsState H) : Option (Except Halt (Int × Kernel × FsState H)) := do
  let (fd, _, s) ← ProcessGetCodeInfo host name here stack s
  return (ProcessFork true (0 ≤ fd) k).map fun r => (r.1, r.2, s)

/-- The objects of a queue. -/
def Kernel.queue (k : Kernel) (q : KQueue) : List Pid := k.qs.store.objects (.client q)

/-- All that a fork takes is as it was. -/
structure NoTrace (k k' : Kernel) (s s' : FsState H) : Prop where
  freepcbs : ∀ p, p ∈ k'.queue .freepcbs ↔ p ∈ k.queue .freepcbs
  runQueue : k'.queue .runQueue = k.queue .runQueue
  waitQueue : k'.queue .waitQueue = k.queue .waitQueue
  currentPCB : k'.currentPCB = k.currentPCB
  freepages : k'.mem.freepages = k.mem.freepages
  nfreepages : k'.mem.nfreepages = k.mem.nfreepages
  freeLinks : (k'.qs.store.links .freeLinks).length = (k.qs.store.links .freeLinks).length
  openfiles : ∀ x, s'.slots x = s.slots x

/-- In the table of shared pages, the page is marked for a process other than `p`. -/
def SharedByOthers (k : Kernel) (p : Pid) (page : Nat) : Prop :=
  ∃ j, findShared k page = some j ∧ countProcs ((k.spages j).procs &&& invert (procBit p)) ≠ 0

instance (k : Kernel) (p : Pid) (page : Nat) : Decidable (SharedByOthers k p page) :=
  inferInstanceAs (Decidable (∃ _, _))

/-- A file of the DLX file system is always too short. -/
def TooShort (host : Host H) (name : List Byte) (s : FsState H) : Prop :=
  isDlxName name = true ∨
    (host.read (host.openFile name FS_MODE_READ s.host).1 100
      (host.openFile name FS_MODE_READ s.host).2).1.1 ≠ 100

/-- What a fork that fails must meet to leave no trace: the user page that it
gets is not shared, and it either opens no file, or it can close the one that it
opens and does so because the file is too short. -/
structure CanUndo (host : Host H) (name : List Byte) (k : Kernel) (s : FsState H) : Prop where
  page : ∀ p page mem, (k.queue .freepcbs).head? = some p →
    MemoryAllocPage k.mem = some (page, mem) → ¬ SharedByOthers k p page
  file : Refused host name FS_MODE_READ s ∨ freeSlot s = none ∨
    freeSlot s ≠ some 0 ∧ TooShort host name s

/-! ## The pages -/

/-- The page table has one entry. A page that is marked for other processes is
not given back. -/
theorem freeMemory.one_page (hn : (k.pcbs p).npages = 1) (hu : (k.pcbs p).userPage ≠ 0)
    (hrun : freeMemory p k = .ok ((), k')) :
    k'.mem = MemoryFreePage (k.pcbs p).stackPage
      (if SharedByOthers k p (k.pcbs p).userPage then k.mem
        else MemoryFreePage (k.pcbs p).userPage k.mem) := by
  have hpte : (k.pcbs p).pte 0 = some ((k.pcbs p).pagetable 0) := (k.pcbs p).pte_eq 0
  have huser : (k.pcbs p).userPage = ((k.pcbs p).pagetable 0).toNat / MEMORY_PAGE_SIZE :=
    pteToPageNumber_eq _
  rw [huser] at hu ⊢
  have hshared : ∀ i, findShared k (((k.pcbs p).pagetable 0).toNat / MEMORY_PAGE_SIZE) = i →
      findShared { k with intrs := 15 } (((k.pcbs p).pagetable 0).toNat / MEMORY_PAGE_SIZE) = i :=
    fun i hi => hi
  unfold freeMemory at hrun
  simp only [K.bind_run, K.read_run, hn, List.range_succ, List.range_zero, List.nil_append,
    freeSharedPtes, MemoryFreeSharedPte, DisableIntrs, RestoreIntrs, SetIntrs, hpte, deref,
    K.pure_run, if_neg hu] at hrun
  rcases hf : findShared k (((k.pcbs p).pagetable 0).toNat / MEMORY_PAGE_SIZE) with _ | j
  · rw [if_neg (by simp [SharedByOthers, hf])]
    simp only [hshared _ hf, SetIntrs, K.bind_run, K.pure_run, hn, List.range_succ,
      List.range_zero, List.nil_append, freePtes, K.read_run, hpte, deref, freePage_run,
      freePte_run] at hrun
    obtain ⟨-, rfl⟩ := Prod.mk.inj (Except.ok.inj hrun)
    rfl
  · have hiff : SharedByOthers k p (((k.pcbs p).pagetable 0).toNat / MEMORY_PAGE_SIZE) ↔
        countProcs ((k.spages j).procs &&& invert (procBit p)) ≠ 0 := by
      simp [SharedByOthers, hf]
    simp only [hshared _ hf, setShared, setPcb] at hrun
    by_cases hc : countProcs ((k.spages j).procs &&& invert (procBit p)) = 0
    · rw [if_neg (fun h => hiff.mp h hc)]
      simp only [hc, if_true, freePage_run, K.bind_run, K.write_run, K.pure_run, SetIntrs,
        update_self, hn, Nat.sub_self, List.range_zero, freePtes] at hrun
      obtain ⟨-, rfl⟩ := Prod.mk.inj (Except.ok.inj hrun)
      rfl
    · rw [if_pos (hiff.mpr hc)]
      simp only [hc, if_false, freePage_run, K.bind_run, K.write_run, K.pure_run, SetIntrs,
        update_self, hn, Nat.sub_self, List.range_zero, freePtes] at hrun
      obtain ⟨-, rfl⟩ := Prod.mk.inj (Except.ok.inj hrun)
      rfl

/-- The two pages that a fork takes go back to the map, but for the user page
where it is marked for other processes. -/
theorem forkMemory.undone {k0 : Kernel} {live : Pid → Prop} (hok : PagesOk k0 live)
    (hmem : forkMemory p k0 = .ok ((), k1)) (hf : Frozen k1 k2)
    (hfree : freeMemory p k2 = .ok ((), k')) :
    ∃ page mem, MemoryAllocPage k0.mem = some (page, mem) ∧
      if SharedByOthers k0 p page then k'.mem.nfreepages + 1 = k0.mem.nfreepages
      else k'.mem.freepages = k0.mem.freepages ∧ k'.mem.nfreepages = k0.mem.nfreepages := by
  obtain ⟨page, stack, m1, m2, ha, hpage, hb, hstack, rfl⟩ := (forkMemory.ok_iff p k0 k1).mp hmem
  have hn1 := MemoryAllocPage.pos ha hpage
  have hn2 := MemoryAllocPage.pos hb hstack
  obtain ⟨hfree1, hbits1, hcount1, -, -⟩ := MemoryAllocPage.spec ha hn1
  obtain ⟨hfree2, hbits2, hcount2, -, -⟩ := MemoryAllocPage.spec hb hn2
  have hstack2 : freeBit k0.mem stack = true := by
    rw [hbits1, Bool.and_eq_true] at hfree2
    exact hfree2.2
  obtain ⟨hu, hs⟩ := PCB.fresh_pages (k0.pcbs p) (hok.bits page hfree1).2
    (hok.bits stack hstack2).2
  obtain ⟨hnp, hpt, hst⟩ := hf.maps p
  simp only [update_self] at hnp hpt hst
  have hu2 : (k2.pcbs p).userPage = page := by
    rw [← hu]
    unfold PCB.userPage
    rw [hpt]
  have hs2 : (k2.pcbs p).stackPage = stack := by
    rw [← hs]
    unfold PCB.stackPage
    rw [hst]
  have hshared : SharedByOthers k2 p page ↔ SharedByOthers k0 p page := by
    have hsp : k2.spages = k0.spages := hf.spages
    unfold SharedByOthers findShared
    rw [hsp]
  have hmem2 : k2.mem = m2 := hf.mem
  have hback := freeMemory.one_page hnp (hu2 ▸ hpage) hfree
  rw [hu2, hs2, hmem2] at hback
  refine ⟨page, m1, ha, ?_⟩
  by_cases hsh : SharedByOthers k0 p page
  · rw [if_pos (hshared.mpr hsh)] at hback
    rw [if_pos hsh, hback, nfreepages_freePage]
    omega
  · rw [if_neg fun h => hsh (hshared.mp h)] at hback
    rw [if_neg hsh, hback]
    refine ⟨freepages_ext fun x => ?_, ?_⟩
    · rw [freeBit_freePage, freeBit_freePage, hbits2, hbits1]
      by_cases h1 : x = stack
      · subst h1
        simp [hstack2]
      · by_cases h2 : x = page
        · subst h2
          simp [hfree1]
        · simp [h1, h2]
    · rw [nfreepages_freePage, nfreepages_freePage]
      omega

/-! ## The kernel -/

/-- The part of `NoTrace` that always holds. -/
structure QueuesBack (k k' : Kernel) : Prop where
  freepcbs : ∀ p, p ∈ k'.queue .freepcbs ↔ p ∈ k.queue .freepcbs
  runQueue : k'.queue .runQueue = k.queue .runQueue
  waitQueue : k'.queue .waitQueue = k.queue .waitQueue
  currentPCB : k'.currentPCB = k.currentPCB
  freeLinks : (k'.qs.store.links .freeLinks).length = (k.qs.store.links .freeLinks).length

theorem entries_congr {qs : List KQueue} {Q R : KQueue → List Pid}
    (h : ∀ q, (R q).length = (Q q).length) : entries qs R = entries qs Q := by
  unfold entries
  simp only [h]

theorem ProcessFork.loads_ne {level : Level} (h : Good m)
    (hrun : ProcessFork true true (m.kernel.withIntrs level) = .ok (v, k')) : v ≠ -1 := by
  obtain ⟨home, waits, hsl⟩ := h.inv.sleepers
  have hsim := h.sim.withIntrs level
  rcases hq : m.system.queue .freepcbs with _ | ⟨p, ps⟩
  · rw [ProcessFork.nil hsim.rep hq] at hrun
    cases hrun
  · obtain ⟨k0, -, herr, hok⟩ := ProcessFork.sim hsim hsl.placed hq true true
    rcases hmem : forkMemory p k0 with e | ⟨_, k1⟩
    · rw [herr e hmem] at hrun
      cases hrun
    · obtain ⟨k2, hrun2, -⟩ := hok k1 hmem
      rw [hrun2] at hrun
      obtain ⟨rfl, -⟩ := Prod.mk.inj (Except.ok.inj hrun)
      omega

theorem ProcessFork.fails {level : Level} (h : Good m)
    (hrun : ProcessFork true false (m.kernel.withIntrs level) = .ok (v, k')) :
    QueuesBack m.kernel k' ∧ ∃ p page mem, (m.kernel.queue .freepcbs).head? = some p ∧
      MemoryAllocPage m.kernel.mem = some (page, mem) ∧
      if SharedByOthers m.kernel p page then k'.mem.nfreepages + 1 = m.kernel.mem.nfreepages
      else k'.mem.freepages = m.kernel.mem.freepages ∧
        k'.mem.nfreepages = m.kernel.mem.nfreepages := by
  obtain ⟨home, waits, hsl⟩ := h.inv.sleepers
  have hsim := h.sim.withIntrs level
  rcases hq : m.system.queue .freepcbs with _ | ⟨p, ps⟩
  · rw [ProcessFork.nil hsim.rep hq] at hrun
    cases hrun
  have hold : m.queue .freepcbs = p :: ps := hq
  obtain ⟨k0, hf0, herr, hok⟩ := ProcessFork.sim hsim hsl.placed hq true false
  rcases hmem : forkMemory p k0 with e | ⟨_, k1⟩
  · rw [herr e hmem] at hrun
    cases hrun
  obtain ⟨k2, k3, hrun2, hsim3, hcur, hf, hfree⟩ := hok k1 hmem
  rw [hrun2] at hrun
  obtain ⟨-, rfl⟩ := Prod.mk.inj (Except.ok.inj hrun)
  have hmove : (m.system.move p .freepcbs .freepcbs).queue =
      update m.system.queue .freepcbs (ps ++ [p]) := by
    simp [System.move, moveLast, hold]
  have hrep := hsim3.rep
  rw [hmove] at hrep
  have hqueue : ∀ q, k3.queue q = update m.system.queue .freepcbs (ps ++ [p]) q := hrep.objects_eq
  refine ⟨⟨fun r => ?_, (hqueue .runQueue).trans rfl, (hqueue .waitQueue).trans rfl, hcur, ?_⟩, ?_⟩
  · have hold' : m.kernel.queue .freepcbs = p :: ps := hq
    rw [hqueue, update_self, hold']
    simp [or_comm]
  · have hcount := hrep.count
    have hcount0 := h.sim.rep.count
    have hlen : ∀ q, (update m.system.queue .freepcbs (ps ++ [p]) q).length =
        (m.system.queue q).length := by
      intro q
      by_cases hqf : q = .freepcbs
      · subst hqf
        simp [hold]
      · rw [update_of_ne hqf]
    rw [entries_congr hlen, entries_congr hlen] at hcount
    omega
  · have hpages := (h.sim.pages.congr hf0.mem hf0.spages hf0.maps fun _ => id)
    obtain ⟨page, mem, ha, hback⟩ := forkMemory.undone hpages hmem hf hfree
    have hmem0 : k0.mem = m.kernel.mem := hf0.mem
    have hshared : SharedByOthers k0 p page ↔ SharedByOthers m.kernel p page := by
      have hsp : k0.spages = m.kernel.spages := hf0.spages
      unfold SharedByOthers findShared
      rw [hsp]
    have hhead : (m.kernel.queue .freepcbs).head? = some p := congrArg List.head? hq
    refine ⟨p, page, mem, hhead, hmem0 ▸ ha, ?_⟩
    simpa only [hshared, hmem0] using hback

/-! ## The open files -/

/-- What the loader has done when it comes back without a file. -/
inductive LoadFails (host : Host H) (name : List Byte) (s : FsState H) : FsState H → Prop
  | notOpened (h : (FsOpen host name FS_MODE_READ s).1 < 0) :
    LoadFails host name s (FsOpen host name FS_MODE_READ s).2
  | tooShort (i : FsSlot) (s1 : FsState H) (hret : (FsOpen host name FS_MODE_READ s).1 = i)
    (htable : s1.openfiles = (FsOpen host name FS_MODE_READ s).2.openfiles)
    (hread : (FsRead host i 100 (FsOpen host name FS_MODE_READ s).2).1.1 ≠ 100) :
    LoadFails host name s (FsClose host i s1).2
  | noStart (i : FsSlot) (s1 : FsState H) (hret : (FsOpen host name FS_MODE_READ s).1 = i)
    (htable : s1.openfiles = (FsOpen host name FS_MODE_READ s).2.openfiles)
    (hread : (FsRead host i 100 (FsOpen host name FS_MODE_READ s).2).1.1 = 100) :
    LoadFails host name s s1

/-- The header is too short just when the read does not fill the buffer. Where
it has no start line, nothing happens after the read. -/
theorem readHeader.read {F : Type} {io : FileIo F} {f f' : F} {r : Header}
    (hrun : readHeader io here stack f = some (r, f')) :
    (r = .tooShort ↔ (io.read 100 f).1.1 ≠ 100) ∧
      ((∀ i, r ≠ .found i) → f' = (io.read 100 f).2) := by
  unfold readHeader at hrun
  simp only at hrun
  by_cases hn : (io.read 100 f).1.1 = 100
  · rw [if_neg (not_not.mpr hn)] at hrun
    obtain ⟨start, -, hrun⟩ := Option.bind_eq_some_iff.mp hrun
    by_cases hs : start = none
    · rw [if_pos hs] at hrun
      obtain ⟨rfl, rfl⟩ := Prod.mk.inj (Option.some.inj hrun)
      exact ⟨by simp [hn], fun _ => rfl⟩
    · rw [if_neg hs] at hrun
      obtain ⟨i, -, hrun⟩ := Option.bind_eq_some_iff.mp hrun
      obtain ⟨offset, -, hrun⟩ := Option.bind_eq_some_iff.mp hrun
      obtain ⟨rfl, -⟩ := Prod.mk.inj (Option.some.inj hrun)
      exact ⟨by simp [hn], fun h => absurd rfl (h i)⟩
  · rw [if_pos hn] at hrun
    obtain ⟨rfl, rfl⟩ := Prod.mk.inj (Option.some.inj hrun)
    exact ⟨by simp [hn], fun _ => rfl⟩

theorem ProcessGetCodeInfo.not_opened (h : (FsOpen host name FS_MODE_READ s).1 < 0) :
    ProcessGetCodeInfo host name here stack s =
      some (-1, none, (FsOpen host name FS_MODE_READ s).2) := by
  unfold ProcessGetCodeInfo
  simp only [if_pos h]

theorem ProcessGetCodeInfo.fails (hfd : fd < 0)
    (hrun : ProcessGetCodeInfo host name here stack s = some (fd, info, s')) :
    LoadFails host name s s' := by
  rcases FsOpen.cases host name FS_MODE_READ s with ⟨hneg, -⟩ | ⟨i, -, hret, -⟩
  · rw [ProcessGetCodeInfo.not_opened hneg] at hrun
    obtain ⟨-, -, rfl⟩ : -1 = fd ∧ none = info ∧ _ = s' := by simpa using hrun
    exact .notOpened hneg
  unfold ProcessGetCodeInfo at hrun
  have hpos : ¬ (FsOpen host name FS_MODE_READ s).1 < 0 := by omega
  simp only [if_neg hpos] at hrun
  rw [hret] at hrun
  rcases hh : readHeader (fsIo host i) here stack (FsOpen host name FS_MODE_READ s).2 with
    _ | ⟨r, s1⟩
  · rw [hh] at hrun
    cases hrun
  obtain ⟨hshort, hsame⟩ := readHeader.read hh
  rw [hh] at hrun
  cases r with
  | tooShort =>
    obtain ⟨-, -, rfl⟩ : -1 = fd ∧ none = info ∧ (FsClose host i s1).2 = s' := by simpa using hrun
    have hs1 := hsame (by simp)
    refine .tooShort i s1 hret ?_ (hshort.mp rfl)
    rw [hs1]
    exact FsRead_table 100
  | noStart =>
    obtain ⟨-, -, rfl⟩ : -1 = fd ∧ none = info ∧ s1 = s' := by simpa using hrun
    have hs1 := hsame (by simp)
    refine .noStart i s1 hret ?_ (not_not.mp fun hn => nomatch hshort.mpr hn)
    rw [hs1]
    exact FsRead_table 100
  | found =>
    obtain ⟨rfl, -⟩ : (i : Int) = fd ∧ _ := by simpa using hrun
    omega

theorem read_mode : FS_MODE_READ &&& FS_MODE_RW = FS_MODE_READ := rfl

theorem Opened.valid {i : FsSlot} (h : Opened s s' i) (hi : i ≠ 0) : FdValid i s' = true :=
  FdValid_iff.mpr ⟨i, hi, rfl, h.now⟩

/-- The read of the header gives less than the buffer just when the file is too
short. -/
theorem FsRead_opened {i : FsSlot} (href : ¬ Refused host name FS_MODE_READ s)
    (hfree : freeSlot s = some i) (hi : i ≠ 0) :
    (FsRead host i 100 (FsOpen host name FS_MODE_READ s).2).1.1 ≠ 100 ↔ TooShort host name s := by
  obtain ⟨-, hopened⟩ := FsOpen.opens href hfree
  have hread : FsRead host i 100 (FsOpen host name FS_MODE_READ s).2 = _ :=
    if_pos (hopened.valid hi)
  have hmode : FS_MODE_READ &&& FS_MODE_RW ≠ 0 := by decide
  rw [hread, slotOf_slot]
  unfold TooShort
  rcases hname : isDlxName name with _ | _
  · have hhost : ¬ (host.openFile name (FS_MODE_READ &&& FS_MODE_RW) s.host).1 < 0 := fun hneg =>
      href (.inr ⟨hname, hneg⟩)
    rw [FsOpen_unix hmode hfree hname, if_neg hhost, read_mode]
    have hself : (unixOpened host name FS_MODE_READ i s).openfiles i =
        ⟨0, FS_MODE_READ, (host.openFile name FS_MODE_READ s.host).1⟩ := by
      simp [unixOpened, FsState.setU, FsState.setFs, FsState.setFlags]
    simp only [hself, fs, FsUnixRead, Bool.false_eq_true, false_or]
    rfl
  · rw [FsOpen_dlx hmode hfree hname]
    have hself : ((((s.setFlags i (FS_MODE_READ &&& FS_MODE_RW)).setFs i 1).setU i 0).openfiles
        i).fs = 1 := by
      simp [FsState.setU, FsState.setFs, FsState.setFlags]
    simp only [hself, fs, FsDlxRead, true_or, iff_true]
    decide

/-- A slot that was taken and is not given back shows in the table. -/
theorem Opened.shows {i : FsSlot} {s1 : FsState H} (h : Opened s s1 i)
    (htable : s'.openfiles = s1.openfiles) : ¬ ∀ x, s'.slots x = s.slots x := by
  intro hslots
  have hflags := flags_of_slots (hslots i)
  rw [htable, h.was] at hflags
  exact h.now hflags

theorem LoadFails.kept_iff (h : LoadFails host name s s') :
    (∀ x, s'.slots x = s.slots x) ↔ Refused host name FS_MODE_READ s ∨ freeSlot s = none ∨
      freeSlot s ≠ some 0 ∧ TooShort host name s := by
  have hopen := FsOpen.cases host name FS_MODE_READ s
  have hnotRefused : ∀ {i : FsSlot}, (FsOpen host name FS_MODE_READ s).1 = i →
      ¬ Refused host name FS_MODE_READ s := by
    intro i hret href
    have hneg := (FsOpen.refused href).1
    omega
  cases h with
  | notOpened hneg =>
    rcases hopen with ⟨-, hslots⟩ | ⟨i, -, hret, -⟩
    · refine iff_of_true hslots ?_
      by_contra hcan
      push Not at hcan
      obtain ⟨i, hfree⟩ := Option.ne_none_iff_exists'.mp hcan.2.1
      obtain ⟨hret, -⟩ := FsOpen.opens hcan.1 hfree
      omega
    · omega
  | tooShort i s1 hret htable hread =>
    rcases hopen with ⟨hneg, -⟩ | ⟨j, hfree, hret', hopened⟩
    · omega
    obtain rfl : i = j := Fin.ext (by omega)
    have href := hnotRefused hret
    by_cases hi : i = 0
    · -- descriptor 0 cannot be closed
      subst hi
      have hinvalid : ¬ FdValid (0 : FsSlot) s1 = true := fun hv => by
        obtain ⟨x, hx, h0, -⟩ := FdValid_iff.mp hv
        exact hx (Fin.ext (by simpa using h0.symm))
      have hsame : FsClose host (0 : FsSlot) s1 = (-1, s1) := if_neg hinvalid
      rw [hsame]
      exact iff_of_false (hopened.shows htable) (by simp [href, hfree])
    · have hvalid : FdValid i s1 = true :=
        FdValid_iff.mpr ⟨i, hi, rfl, by rw [htable]; exact hopened.now⟩
      have hclose := @FsClose_table _ host _ _ hvalid
      rw [slotOf_slot] at hclose
      refine iff_of_true (fun x => ?_) (.inr (.inr ⟨?_, (FsRead_opened href hfree hi).mp hread⟩))
      · by_cases hx : x = i
        · subst hx
          rw [slots_free hopened.was]
          exact slots_free (by rw [hclose, update_self])
        · refine slots_congr ?_
          rw [hclose, update_of_ne hx, htable, hopened.others x hx]
      · rw [hfree]
        simpa using hi
  | noStart i _ hret htable hread =>
    rcases hopen with ⟨hneg, -⟩ | ⟨j, hfree, hret', hopened⟩
    · omega
    obtain rfl : i = j := Fin.ext (by omega)
    have href := hnotRefused hret
    refine iff_of_false (hopened.shows htable) ?_
    rintro (hr | hnone | ⟨hne, hshort⟩)
    · exact href hr
    · rw [hfree] at hnone
      cases hnone
    · have hi : i ≠ 0 := fun he => hne (by rw [hfree, he])
      exact (FsRead_opened href hfree hi).mpr hshort hread

/-! ## The fork -/

theorem forkUser.fails {level : Level} (h : Good m)
    (hrun : forkUser host name here stack (m.kernel.withIntrs level) s = some (.ok (-1, k', s'))) :
    ProcessFork true false (m.kernel.withIntrs level) = .ok (-1, k') ∧
        LoadFails host name s s' := by
  unfold forkUser at hrun
  obtain ⟨⟨fd, info, s1⟩, hload, hrun⟩ := Option.bind_eq_some_iff.mp hrun
  have hrun := Option.some.inj hrun
  rcases hfork : ProcessFork true (decide (0 ≤ fd)) (m.kernel.withIntrs level) with e | ⟨v, k1⟩
  · rw [hfork] at hrun
    cases hrun
  rw [hfork] at hrun
  obtain ⟨rfl, hrun⟩ := Prod.mk.inj (Except.ok.inj hrun)
  obtain ⟨rfl, rfl⟩ := Prod.mk.inj hrun
  by_cases hfd : 0 ≤ fd
  · rw [decide_eq_true hfd] at hfork
    exact absurd rfl (ProcessFork.loads_ne h hfork)
  · rw [decide_eq_false hfd] at hfork
    exact ⟨hfork, ProcessGetCodeInfo.fails (by omega) hload⟩

/-- A fork that fails leaves no trace just when it can undo what it did. -/
theorem failed_fork_iff (h : Reachable m) (level : Level)
    (hrun : forkUser host name here stack (m.kernel.withIntrs level) s = some (.ok (-1, k', s'))) :
    NoTrace m.kernel k' s s' ↔ CanUndo host name m.kernel s := by
  obtain ⟨hfork, hload⟩ := forkUser.fails h.good hrun
  obtain ⟨hback, p, page, mem, hp, ha, hpages⟩ := ProcessFork.fails h.good hfork
  constructor
  · intro hno
    refine ⟨fun p' page' mem' hp' ha' hsh => ?_, hload.kept_iff.mp hno.openfiles⟩
    obtain rfl : p = p' := Option.some.inj (hp.symm.trans hp')
    obtain ⟨rfl, -⟩ := Prod.mk.inj (Option.some.inj (ha.symm.trans ha'))
    rw [if_pos hsh] at hpages
    have hn := hno.nfreepages
    omega
  · intro hcan
    rw [if_neg (hcan.page p page mem hp ha)] at hpages
    exact ⟨hback.freepcbs, hback.runQueue, hback.waitQueue, hback.currentPCB, hpages.1, hpages.2,
      hback.freeLinks, hload.kept_iff.mpr hcan.file⟩

/-! ## A file without a start line -/

/-- A host that opens every file as its file 3. Each file holds NUL bytes only. -/
def nulHost : Host Unit where
  openFile _ _ h := (3, h)
  read _ n h := ((n.toNat, List.replicate n.toNat 0), h)
  write _ _ n h := (n, h)
  lseek _ _ _ h := (0, h)
  close _ h := (0, h)
  read_stores _ _ _ := by simp only [List.length_replicate, Int.toNat_natCast]
  read_le _ _ _ := by simp only [List.length_replicate, Nat.le_refl]

/-- What `main` does before the first process: it opens the file `vm`, and the
close of descriptor 0 fails. -/
def mainCalls : List FsCall := [.openFile [118, 109] FS_MODE_WRITE, .close 0]

def mainState : FsState Unit := (fsRun nulHost ⟨fun _ => ⟨0, 0, 0⟩, ()⟩ mainCalls).1

theorem nulHost_fails : ∃ info s', ProcessGetCodeInfo nulHost [97] 0 [] mainState =
    some (-1, info, s') := by
  have hfd : (ProcessGetCodeInfo nulHost [97] 0 [] mainState).map (fun r => r.1) = some (-1) := by
    decide +kernel
  obtain ⟨⟨fd, info, s'⟩, hload, rfl⟩ := Option.map_eq_some_iff.mp hfd
  exact ⟨info, s', hload⟩

/-- Right after the start of the machine, a fork without a file comes back with -1. -/
theorem fork_at_the_start : ∃ m k', Reachable m ∧ m.kernel.queue .freepcbs ≠ [] ∧
    2 ≤ m.kernel.mem.nfreepages ∧
    (∀ page, freeBit m.kernel.mem page = true → findShared m.kernel page = none) ∧
    ProcessFork true false (m.kernel.withIntrs 0) = .ok (-1, k') := by
  obtain ⟨m, hb, hgood, hsys, -, -⟩ := boot_good Boot.small
  have howned := Owned.start hb
  have hq : m.system.queue .freepcbs =
      (31 : Pid) :: (List.finRange 31).reverse.map Fin.castSucc := by
    rw [hsys]
    decide
  have hnum : m.kernel.mem.nfreepages = 30 := by
    rw [howned.map.count, ← Boot.small_pages]
    simp
  obtain ⟨home, waits, hsl⟩ := hgood.inv.sleepers
  obtain ⟨k0, hf0, -, hok⟩ := ProcessFork.sim (hgood.sim.withIntrs 0) hsl.placed hq true false
  have howned0 := @Owned.frozen _ _ _ k0 _ (fun p => p ∉ m.queue .freepcbs) howned
    ((Frozen.withIntrs m.kernel 0).trans hf0) fun _ => Iff.rfl
  have hmem0 : k0.mem = m.kernel.mem := hf0.mem
  obtain ⟨k1, hk1⟩ := howned0.fork (by rw [hmem0, hnum]; decide) 31
  obtain ⟨k2, k', hrun, -⟩ := hok k1 hk1
  refine ⟨m, k', .start hb, ?_, by rw [hnum]; decide, fun page hpage => ?_, hrun⟩
  · have hold : m.kernel.queue .freepcbs = _ := hq
    rw [hold]
    simp
  · have hne := (hgood.sim.pages.bits page hpage).1
    unfold findShared
    rw [List.find?_eq_none]
    intro i _
    simpa [howned.shared i] using Ne.symm hne

theorem forkUser_of_fails {info : Option CodeInfo} (hfd : fd < 0)
    (hload : ProcessGetCodeInfo host name here stack s = some (fd, info, s'))
    (hfork : ProcessFork true false k = .ok (v, k')) :
    forkUser host name here stack k s = some (.ok (v, k', s')) := by
  unfold forkUser
  rw [hload]
  simp only [Option.bind_eq_bind, Option.bind_some, decide_eq_false (by omega : ¬ 0 ≤ fd), hfork]
  rfl

/-- The file is opened, and no start line is found in it. Nobody closes it. -/
theorem file_stays_open : ¬ ∀ (host : Host Unit) (s0 : FsState Unit) (calls : List FsCall)
    (m : Machine) (level : Level) (name stack : List Byte) (here : Int) (k' : Kernel)
    (s' : FsState Unit), Reachable m → m.kernel.queue .freepcbs ≠ [] →
    2 ≤ m.kernel.mem.nfreepages →
    (∀ page, freeBit m.kernel.mem page = true → findShared m.kernel page = none) →
    forkUser host name here stack (m.kernel.withIntrs level) (fsRun host s0 calls).1 =
      some (.ok (-1, k', s')) →
    NoTrace m.kernel k' (fsRun host s0 calls).1 s' := by
  intro hall
  obtain ⟨m, k', hm, hq, hn, hshared, hfork⟩ := fork_at_the_start
  obtain ⟨info, s', hload⟩ := nulHost_fails
  have hrun := forkUser_of_fails (by decide) hload hfork
  have hno := hall nulHost _ mainCalls m 0 [97] [] 0 k' s' hm hq hn hshared hrun
  have hkept := ((forkUser.fails hm.good hrun).2.kept_iff).mp hno.openfiles
  have hfree : freeSlot mainState = some 1 := by decide +kernel
  rcases hkept with (hmode | ⟨-, hneg⟩) | hnone | ⟨-, hname | hlen⟩
  · exact absurd hmode (by decide)
  · exact absurd hneg (by decide)
  · exact Option.some_ne_none _ (hfree.symm.trans hnone)
  · exact absurd hname (by decide)
  · exact hlen rfl

/-- A host without any file. -/
def emptyHost : Host Unit := { nulHost with openFile := fun _ _ h => (-1, h) }

theorem fork_of_no_file : ∃ m k' s', Reachable m ∧
    forkUser emptyHost [97] 0 [] (m.kernel.withIntrs 0) mainState = some (.ok (-1, k', s')) ∧
    NoTrace m.kernel k' mainState s' := by
  obtain ⟨m, k', hm, hq, hn, hshared, hfork⟩ := fork_at_the_start
  have hopen : (FsOpen emptyHost [97] FS_MODE_READ mainState).1 < 0 := by decide +kernel
  have hload := @ProcessGetCodeInfo.not_opened _ _ _ _ [] 0 hopen
  have hrun := forkUser_of_fails (by decide) hload hfork
  refine ⟨m, k', _, hm, hrun, (failed_fork_iff hm 0 hrun).mpr ?_⟩
  refine ⟨fun p page mem _ ha hsh => ?_, .inl (.inr ⟨by decide, by decide⟩)⟩
  obtain ⟨j, hj, -⟩ := hsh
  have hfree := (MemoryAllocPage.spec ha (by omega)).1
  rw [hshared page hfree] at hj
  cases hj

end dlxos
