-- What the memory routines do to the kernel. They change the map of free
-- pages, the table of shared pages and the memory of one process, and they
-- keep every page number inside the map.
import DlxOs.FreeMap
import DlxOs.Process

namespace dlxos

open Function

/-- Only the memory changed, and in the PCB of `p` only what it maps. -/
def MemStep (p : Pid) (k k' : Kernel) : Prop :=
  ∃ mem spages b, k' = { k with mem, spages, pcbs := update k.pcbs p b } ∧
    b.flags = (k.pcbs p).flags ∧ b.result = (k.pcbs p).result

/-- The pages in the map and in the tables are real pages, and none of them
is page 0. A process that is not live may have no system stack yet. -/
structure PagesOk (k : Kernel) (live : Pid → Prop) : Prop where
  bits : ∀ x, freeBit k.mem x = true → x ≠ 0 ∧ x < MEMORY_MAX_PAGES
  shared : ∀ i, (k.spages i).page < MEMORY_MAX_PAGES
  npages : ∀ p, (k.pcbs p).npages ≤ PAGETABLE_SIZE
  ptes : ∀ p (i : Fin PAGETABLE_SIZE), i.val < (k.pcbs p).npages →
    ((k.pcbs p).pagetable i).toNat / MEMORY_PAGE_SIZE ≠ 0
  stack : ∀ p, live p → (k.pcbs p).sysStackArea.toNat / MEMORY_PAGE_SIZE ≠ 0

variable {k k' k'' : Kernel} {p : Pid} {live : Pid → Prop}

theorem MemStep.refl (p : Pid) (k : Kernel) : MemStep p k k :=
  ⟨k.mem, k.spages, k.pcbs p, by rw [update_eq_self], rfl, rfl⟩

theorem MemStep.trans (h : MemStep p k k') (h' : MemStep p k' k'') : MemStep p k k'' := by
  obtain ⟨m, s, b, rfl, h1, h2⟩ := h
  obtain ⟨m', s', b', rfl, h3, h4⟩ := h'
  refine ⟨m', s', b', by simp, ?_, ?_⟩
  · simpa [h1] using h3
  · simpa [h2] using h4

/-- No process changes its status. -/
theorem MemStep.flags (h : MemStep p k k') (r : Pid) : (k'.pcbs r).flags = (k.pcbs r).flags := by
  obtain ⟨m, s, b, rfl, h1, _⟩ := h
  by_cases hr : r = p
  · subst hr; simpa using h1
  · simp [hr]

theorem word_page_lt (w : Word) : w.toNat / MEMORY_PAGE_SIZE < MEMORY_MAX_PAGES := by
  have := w.isLt
  simp only [MEMORY_PAGE_SIZE, MEMORY_MAX_PAGES]
  omega

/-- The mask clears bits inside the page only. -/
theorem pteToPageNumber_eq (pte : Word) : pteToPageNumber pte = pte.toNat / MEMORY_PAGE_SIZE := by
  have hmask : MEMORY_PTE_MASK.toNat >>> 16 = 2 ^ 16 - 1 := by decide
  rw [pteToPageNumber, BitVec.toNat_and, MEMORY_PAGE_SIZE, show (65536 : Nat) = 2 ^ 16 from rfl,
    ← Nat.shiftRight_eq_div_pow, Nat.shiftRight_and_distrib, hmask, Nat.and_two_pow_sub_one_eq_mod,
    Nat.shiftRight_eq_div_pow]
  have := pte.isLt
  omega

theorem PCB.pte_eq (b : PCB) (i : Fin PAGETABLE_SIZE) : b.pte i = some (b.pagetable i) := by
  simp [PCB.pte, i.isLt]

theorem PCB.setPte_eq (b : PCB) (i : Fin PAGETABLE_SIZE) (pte : Word) :
    b.setPte i pte = { b with pagetable := update b.pagetable i pte } := by
  simp [PCB.setPte, i.isLt]

/-! ## Freeing -/

theorem freePage_run (page : Nat) (k : Kernel) :
    freePage page k = .ok ((), { k with mem := MemoryFreePage page k.mem }) := rfl

theorem freePte_run (pte : Word) (k : Kernel) : freePte pte k =
    .ok ((), { k with mem := MemoryFreePage (pte.toNat / MEMORY_PAGE_SIZE) k.mem }) := by
  rw [← pteToPageNumber_eq]
  rfl

theorem PagesOk.freePage (h : PagesOk k live) {page : Nat} (h0 : page ≠ 0)
    (hlt : page < MEMORY_MAX_PAGES) : PagesOk { k with mem := MemoryFreePage page k.mem } live := by
  refine ⟨?_, h.shared, h.npages, h.ptes, h.stack⟩
  intro x hx
  rw [freeBit_freePage, Bool.or_eq_true, decide_eq_true_eq] at hx
  rcases hx with rfl | hx
  · exact ⟨h0, hlt⟩
  · exact h.bits x hx

theorem MemStep.freePage (p : Pid) (k : Kernel) (page : Nat) :
    MemStep p k { k with mem := MemoryFreePage page k.mem } :=
  ⟨_, k.spages, k.pcbs p, by rw [update_eq_self], rfl, rfl⟩

/-- A shared page of a process is given back, and any other page stays. -/
theorem MemoryFreeSharedPte.spec (h : PagesOk k live) (p : Pid) (i : Fin PAGETABLE_SIZE)
    (hi : ((k.pcbs p).pagetable i).toNat / MEMORY_PAGE_SIZE ≠ 0) :
    ∃ r k', MemoryFreeSharedPte p i k = .ok (r, k') ∧ MemStep p k k' ∧ PagesOk k' live ∧
      (k'.pcbs p).pagetable = (k.pcbs p).pagetable ∧
      (k'.pcbs p).npages ≤ (k.pcbs p).npages := by
  have hlt := word_page_lt ((k.pcbs p).pagetable i)
  unfold MemoryFreeSharedPte
  simp only [K.bind_run, K.read_run, DisableIntrs, RestoreIntrs, SetIntrs, PCB.pte_eq, deref,
    K.pure_run, hi, if_false]
  rcases findShared { k with intrs := 15 } _ with _ | j
  · exact ⟨-1, k, rfl, .refl p k, h, rfl, Nat.le_refl _⟩
  · have hok : PagesOk { k with
        spages := update k.spages j { k.spages j with
          procs := (k.spages j).procs &&& invert (procBit p) }
        pcbs := update k.pcbs p { k.pcbs p with npages := (k.pcbs p).npages - 1 } } live := by
      refine ⟨h.bits, ?_, ?_, ?_, ?_⟩
      · intro i
        by_cases hij : i = j
        · subst hij; simpa using h.shared i
        · simpa [hij] using h.shared i
      all_goals intro r
      all_goals by_cases hr : r = p
      all_goals simp only [hr, update_self, ne_eq, not_false_eq_true, update_of_ne]
      · have := h.npages p; omega
      · exact h.npages r
      · intro i hlt'; exact h.ptes p i (by omega)
      · exact h.ptes r
      · exact h.stack p
      · exact h.stack r
    simp only [setShared, setPcb]
    by_cases hc : countProcs ((k.spages j).procs &&& invert (procBit p)) = 0
    · simp only [hc, if_true, freePage_run, K.bind_run]
      refine ⟨_, _, rfl, ?_, hok.freePage hi hlt, ?_, ?_⟩
      · exact ⟨_, _, { k.pcbs p with npages := (k.pcbs p).npages - 1 }, rfl, rfl, rfl⟩
      all_goals simp
    · simp only [hc, if_false, K.pure_run, K.bind_run]
      refine ⟨_, _, rfl, ?_, hok, ?_, ?_⟩
      · exact ⟨k.mem, _, { k.pcbs p with npages := (k.pcbs p).npages - 1 }, rfl, rfl, rfl⟩
      all_goals simp

theorem freeSharedPtes.spec (p : Pid) (is : List Nat) :
    ∀ {k}, PagesOk k live →
      (∀ i ∈ is, ∃ h : i < PAGETABLE_SIZE,
        ((k.pcbs p).pagetable ⟨i, h⟩).toNat / MEMORY_PAGE_SIZE ≠ 0) →
      ∃ k', freeSharedPtes p is k = .ok ((), k') ∧ MemStep p k k' ∧ PagesOk k' live ∧
        (k'.pcbs p).pagetable = (k.pcbs p).pagetable ∧ (k'.pcbs p).npages ≤ (k.pcbs p).npages := by
  induction is with
  | nil => exact fun {k} h _ => ⟨k, rfl, .refl p k, h, rfl, Nat.le_refl _⟩
  | cons i is ih =>
    intro k h his
    obtain ⟨hi, hpage⟩ := his i (by simp)
    obtain ⟨r, k1, hrun, hstep, hok, hpt, hn⟩ := MemoryFreeSharedPte.spec h p ⟨i, hi⟩ hpage
    obtain ⟨k2, hrun2, hstep2, hok2, hpt2, hn2⟩ := ih hok (by
      intro j hj
      rw [hpt]
      exact his j (by simp [hj]))
    refine ⟨k2, ?_, hstep.trans hstep2, hok2, hpt2.trans hpt, Nat.le_trans hn2 hn⟩
    rw [freeSharedPtes, K.bind_ok hrun, hrun2]

theorem freePtes.spec (p : Pid) (is : List Nat) :
    ∀ {k}, PagesOk k live →
      (∀ i ∈ is, ∃ h : i < PAGETABLE_SIZE,
        ((k.pcbs p).pagetable ⟨i, h⟩).toNat / MEMORY_PAGE_SIZE ≠ 0) →
      ∃ k', freePtes p is k = .ok ((), k') ∧ MemStep p k k' ∧ PagesOk k' live := by
  induction is with
  | nil => exact fun {k} h _ => ⟨k, rfl, .refl p k, h⟩
  | cons i is ih =>
    intro k h his
    obtain ⟨hi, hpage⟩ := his i (by simp)
    have hok := h.freePage hpage (word_page_lt _)
    obtain ⟨k2, hrun2, hstep2, hok2⟩ := ih hok (fun j hj => his j (by simp [hj]))
    refine ⟨k2, ?_, (MemStep.freePage p k _).trans hstep2, hok2⟩
    rw [freePtes, K.bind_ok (K.read_run k), PCB.pte_eq _ ⟨i, hi⟩, deref, K.bind_ok (K.pure_run _ k),
      K.bind_ok (freePte_run _ k), hrun2]

/-- The memory of a process can always be freed. -/
theorem freeMemory.spec (h : PagesOk k live) (hp : live p) :
    ∃ k', freeMemory p k = .ok ((), k') ∧ MemStep p k k' ∧ PagesOk k' live := by
  have hall : ∀ i ∈ List.range (k.pcbs p).npages, ∃ hi : i < PAGETABLE_SIZE,
      ((k.pcbs p).pagetable ⟨i, hi⟩).toNat / MEMORY_PAGE_SIZE ≠ 0 := by
    intro i hi
    have hlt := List.mem_range.mp hi
    have hle := h.npages p
    exact ⟨by omega, h.ptes p ⟨i, by omega⟩ hlt⟩
  obtain ⟨k1, hrun1, hstep1, hok1, hpt1, hn1⟩ := freeSharedPtes.spec p _ h hall
  obtain ⟨k2, hrun2, hstep2, hok2⟩ := freePtes.spec p (List.range (k1.pcbs p).npages) hok1 (by
    intro i hi
    rw [hpt1]
    refine hall i (List.mem_range.mpr ?_)
    have := List.mem_range.mp hi
    omega)
  refine ⟨_, ?_, (hstep1.trans hstep2).trans (.freePage p k2 _),
    hok2.freePage (hok2.stack p hp) (word_page_lt _)⟩
  rw [freeMemory, K.bind_ok (K.read_run k), K.bind_ok hrun1, K.bind_ok (K.read_run k1),
    K.bind_ok hrun2, K.bind_ok (K.read_run k2)]
  rfl

/-! ## Allocating -/

theorem allocPage_ok {page : Nat} (h : allocPage k = .ok (page, k')) :
    ∃ mem, MemoryAllocPage k.mem = some (page, mem) ∧ k' = { k with mem } := by
  unfold allocPage at h
  split at h
  · cases h
  · rename_i page' mem he
    simp only [Except.ok.injEq, Prod.mk.injEq] at h
    obtain ⟨rfl, rfl⟩ := h
    exact ⟨mem, he, rfl⟩

/-- A page that was allocated is a real page. -/
theorem PagesOk.alloc {page : Nat} {mem : Memory} (h : PagesOk k live)
    (ha : MemoryAllocPage k.mem = some (page, mem)) (hp : page ≠ 0) :
    page < MEMORY_MAX_PAGES ∧ PagesOk { k with mem } live := by
  obtain ⟨hfree, hbits, _⟩ := MemoryAllocPage.spec ha (MemoryAllocPage.pos ha hp)
  refine ⟨(h.bits page hfree).2, ?_, h.shared, h.npages, h.ptes, h.stack⟩
  intro x hx
  rw [hbits, Bool.and_eq_true] at hx
  exact h.bits x hx.2

/-- The PCB of a new process, with its user page and its stack page. -/
def PCB.fresh (b : PCB) (page stack : Nat) : PCB :=
  { b with
    npages := 1
    pagetable := update b.pagetable 0 (MemorySetupPte page)
    sysStackArea := BitVec.ofNat 32 (stack * MEMORY_PAGE_SIZE) }

/-- A new process takes two pages. -/
theorem forkMemory.ok_iff (p : Pid) (k k' : Kernel) :
    forkMemory p k = .ok ((), k') ↔
      ∃ page stack m m', MemoryAllocPage k.mem = some (page, m) ∧ page ≠ 0 ∧
        MemoryAllocPage m = some (stack, m') ∧ stack ≠ 0 ∧
        k' = { k with
          mem := m'
          pcbs := update k.pcbs p ((k.pcbs p).fresh page stack) } := by
  have hpte : ∀ (b : PCB) pte, b.setPte 0 pte =
      { b with pagetable := update b.pagetable 0 pte } :=
    fun b pte => b.setPte_eq 0 pte
  constructor
  · intro h
    unfold forkMemory at h
    obtain ⟨_, k1, h1, h⟩ := K.bind_eq_ok h
    obtain rfl := (Prod.mk.inj (Except.ok.inj h1)).2
    obtain ⟨page, k2, h2, h⟩ := K.bind_eq_ok h
    obtain ⟨m, ha, rfl⟩ := allocPage_ok h2
    by_cases hp : page = 0
    · simp [hp, K.bind_run, exitsim, K.halt_run] at h
    rw [if_neg hp] at h
    obtain ⟨_, k3, h3, h⟩ := K.bind_eq_ok h
    obtain rfl := (Prod.mk.inj (Except.ok.inj h3)).2
    obtain ⟨stack, k4, h4, h⟩ := K.bind_eq_ok h
    obtain ⟨m', hb, rfl⟩ := allocPage_ok h4
    by_cases hs : stack = 0
    · simp [hs, K.bind_run, exitsim, K.halt_run] at h
    rw [if_neg hs] at h
    obtain rfl := (Prod.mk.inj (Except.ok.inj h)).2
    exact ⟨page, stack, m, m', ha, hp, hb, hs, by simp [hpte, PCB.fresh]⟩
  · rintro ⟨page, stack, m, m', ha, hp, hb, hs, rfl⟩
    simp only [forkMemory, K.bind_run, setPcb_run, allocPage, ha, hb, if_neg hp, if_neg hs]
    simp [hpte, PCB.fresh]

/-- A new process has a page table and a system stack. -/
theorem forkMemory.ok (h : PagesOk k live) (hrun : forkMemory p k = .ok ((), k')) :
    MemStep p k k' ∧ PagesOk k' fun r => r = p ∨ live r := by
  obtain ⟨page, stack, m, m', ha, hp, hb, hs, rfl⟩ := (forkMemory.ok_iff p k k').mp hrun
  obtain ⟨hplt, hok⟩ := h.alloc ha hp
  obtain ⟨hslt, hok'⟩ := hok.alloc hb hs
  have hpage : (MemorySetupPte page).toNat / MEMORY_PAGE_SIZE ≠ 0 := by rwa [setupPte_toNat hplt]
  have hstack : (BitVec.ofNat 32 (stack * MEMORY_PAGE_SIZE)).toNat / MEMORY_PAGE_SIZE ≠ 0 := by
    simp only [MEMORY_MAX_PAGES, MEMORY_PAGE_SIZE, BitVec.toNat_ofNat] at hslt ⊢
    omega
  refine ⟨⟨m', k.spages, _, rfl, rfl, rfl⟩, hok'.bits, h.shared, ?_, ?_, ?_⟩
  all_goals intro r
  all_goals by_cases hr : r = p
  all_goals simp only [hr, update_self, ne_eq, not_false_eq_true, update_of_ne, PCB.fresh]
  · decide
  · exact h.npages r
  · intro i hi
    obtain rfl : i = 0 := Fin.ext (by simpa using hi)
    simpa using hpage
  · exact h.ptes r
  · exact fun _ => hstack
  · exact fun hl => h.stack r (by simpa using hl)

/-! ## Sharing -/

/-- A new page table entry for a page of the process. -/
theorem PagesOk.addPte (h : PagesOk k live) {page : Nat} (h0 : page ≠ 0)
    (hlt : page < MEMORY_MAX_PAGES) (hn : (k.pcbs p).npages < PAGETABLE_SIZE)
    (i : Fin MEMORY_MAX_SHARED_PAGES) (procs : Word) :
    let b := { (k.pcbs p).setPte (k.pcbs p).npages (MemorySetupPte page) with
      npages := (k.pcbs p).npages + 1 }
    PagesOk { k with
      spages := update k.spages i ⟨page, procs⟩
      pcbs := update k.pcbs p b } live ∧
      b.flags = (k.pcbs p).flags ∧ b.result = (k.pcbs p).result := by
  have hpage : (MemorySetupPte page).toNat / MEMORY_PAGE_SIZE ≠ 0 := by rwa [setupPte_toNat hlt]
  have hset := (k.pcbs p).setPte_eq ⟨_, hn⟩ (MemorySetupPte page)
  simp only at hset ⊢
  rw [hset]
  refine ⟨⟨h.bits, ?_, ?_, ?_, ?_⟩, rfl, rfl⟩
  · intro j
    by_cases hj : j = i
    · subst hj; simpa using hlt
    · simpa [hj] using h.shared j
  all_goals intro r
  all_goals by_cases hr : r = p
  all_goals simp only [hr, update_self, ne_eq, not_false_eq_true, update_of_ne]
  · exact hn
  · exact h.npages r
  · intro j hj
    by_cases hjn : j = ⟨_, hn⟩
    · simpa [hjn] using hpage
    · rw [update_of_ne hjn]
      refine h.ptes p j ?_
      have : j.val ≠ (k.pcbs p).npages := fun he => hjn (Fin.ext he)
      omega
  · exact h.ptes r
  · exact h.stack p
  · exact h.stack r

theorem findShared_page {i : Fin MEMORY_MAX_SHARED_PAGES} {page : Nat}
    (h : findShared k page = some i) : (k.spages i).page = page := by
  simpa using List.find?_some h

theorem MemoryCreateSharedPage.ok (h : PagesOk k live) {v : Int}
    (hrun : MemoryCreateSharedPage p k = .ok (v, k')) : MemStep p k k' ∧ PagesOk k' live := by
  unfold MemoryCreateSharedPage at hrun
  simp only [K.bind_run, K.read_run, DisableIntrs, RestoreIntrs, SetIntrs, K.ite_run,
    K.pure_run] at hrun
  split at hrun
  · obtain ⟨_, rfl⟩ := Prod.mk.inj (Except.ok.inj hrun)
    exact ⟨.refl p k, h⟩
  rename_i hn
  have hn : (k.pcbs p).npages ≠ PAGETABLE_SIZE := hn
  rcases hf : findShared { k with intrs := 15 } 0 with _ | i
  · simp only [hf] at hrun
    obtain ⟨_, rfl⟩ := Prod.mk.inj (Except.ok.inj hrun)
    exact ⟨.refl p k, h⟩
  · simp only [hf] at hrun
    obtain ⟨page, k1, h1, hrun⟩ := K.bind_eq_ok hrun
    obtain ⟨m, ha, rfl⟩ := allocPage_ok h1
    by_cases hp : page = 0
    · simp [hp, K.bind_run, exitsim, K.halt_run] at hrun
    simp only [if_neg hp, K.bind_run, setShared, setPcb_run, K.write_run, SetIntrs,
      K.pure_run] at hrun
    obtain ⟨_, rfl⟩ := Prod.mk.inj (Except.ok.inj hrun)
    obtain ⟨hlt, hok⟩ := h.alloc ha hp
    have hnp : (k.pcbs p).npages < PAGETABLE_SIZE := by
      have := h.npages p
      omega
    obtain ⟨hok', h1, h2⟩ := hok.addPte (p := p) hp hlt hnp i (procBit p)
    exact ⟨⟨m, _, _, rfl, h1, h2⟩, hok'⟩

theorem PagesOk.setProcs (h : PagesOk k live) (i : Fin MEMORY_MAX_SHARED_PAGES) (procs : Word) :
    PagesOk { k with spages := update k.spages i { k.spages i with procs } } live := by
  refine ⟨h.bits, ?_, h.npages, h.ptes, h.stack⟩
  intro j
  by_cases hj : j = i
  · subst hj; simpa using h.shared j
  · simpa [hj] using h.shared j

theorem mmap.ok (h : PagesOk k live) (handle : Nat) :
    ∃ v k', mmap p handle k = .ok (v, k') ∧ MemStep p k k' ∧ PagesOk k' live := by
  unfold mmap
  by_cases h0 : handle = 0
  · exact ⟨0, k, by simp [h0, K.pure_run], .refl p k, h⟩
  simp only [if_neg h0, K.bind_run, K.read_run, DisableIntrs, RestoreIntrs, SetIntrs]
  rcases hf : findShared { k with intrs := 15 } handle with _ | i
  · exact ⟨0, k, rfl, .refl p k, h⟩
  have hpage : (k.spages i).page = handle := findShared_page hf
  rcases findMapped (k.pcbs p) handle with _ | j
  · simp only [K.bind_run, SetIntrs, setShared, setPcb, K.write_run, K.ite_run, K.pure_run]
    by_cases hn : (k.pcbs p).npages > 15
    · exact ⟨0, k, by simp only [if_pos hn], .refl p k, h⟩
    · simp only [if_neg hn]
      have hnp : (k.pcbs p).npages < PAGETABLE_SIZE := by simp only [PAGETABLE_SIZE]; omega
      obtain ⟨hok', h1, h2⟩ := h.addPte (p := p) h0 (hpage ▸ h.shared i) hnp i
        ((k.spages i).procs ||| procBit p)
      refine ⟨_, _, rfl, ⟨k.mem, _, _, rfl, h1, h2⟩, ?_⟩
      simpa [hpage] using hok'
  · simp only [K.bind_run, SetIntrs, setShared, K.write_run, K.pure_run]
    exact ⟨_, _, rfl, ⟨k.mem, _, k.pcbs p, by rw [update_eq_self], rfl, rfl⟩, h.setProcs i _⟩

end dlxos
