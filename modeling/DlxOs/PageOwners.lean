-- Who holds the physical pages. In a run that shares no page, each page past
-- the kernel is free or belongs to one process, which has two of them: its
-- user page and its system stack.
import DlxOs.Runs

namespace dlxos

open Function runs

/-- The pages past the kernel. -/
def Boot.pages (b : Boot) : Finset Nat :=
  Finset.Ico (pagestart b.lastosaddress) (maxpage b.memsize)

/-- The page of `pagetable[0]`. -/
def PCB.userPage (b : PCB) : Nat := pteToPageNumber (b.pagetable 0)

/-- The page of `sysStackArea`. -/
def PCB.stackPage (b : PCB) : Nat := b.sysStackArea.toNat / MEMORY_PAGE_SIZE

/-- The map of free pages, where `holder` names the process of each page that
was taken. -/
structure MapOk (b : Boot) (mem : Memory) (holder : Nat → Option Pid) : Prop where
  free : ∀ x, freeBit mem x = true ↔ x ∈ b.pages ∧ holder x = none
  held : ∀ x, holder x ≠ none → x ∈ b.pages
  count : mem.nfreepages = (b.pages.filter fun x => holder x = none).card
  map : mem.freemapmax = (maxpage b.memsize + 31) / 32
  cursor : mem.mapnum = 0 ∨ mem.mapnum < mem.freemapmax

/-- The pages that a live process holds are the two of its PCB. -/
structure Owned (b : Boot) (k : Kernel) (live : Pid → Prop) (holder : Nat → Option Pid) :
    Prop where
  map : MapOk b k.mem holder
  alive : ∀ x p, holder x = some p → live p
  npages : ∀ p, live p → (k.pcbs p).npages = 1
  distinct : ∀ p, live p → (k.pcbs p).userPage ≠ (k.pcbs p).stackPage
  pages : ∀ p, live p → ∀ x,
    holder x = some p ↔ x = (k.pcbs p).userPage ∨ x = (k.pcbs p).stackPage
  shared : ∀ i, (k.spages i).page = 0

variable {b : Boot} {mem mem' : Memory} {holder : Nat → Option Pid} {k k' : Kernel} {p : Pid}
  {live live' : Pid → Prop} {m m' : Machine} {l : Label} {page : Nat}

/-! ## One page -/

theorem Boot.pages_ok (b : Boot) {x : Nat} (hx : x ∈ b.pages) : x ≠ 0 ∧ x < MEMORY_MAX_PAGES := by
  have h1 := b.os_ge
  have h2 := b.memsize_lt
  simp only [Boot.pages, Finset.mem_Ico, pagestart, maxpage, MEMORY_PAGE_SIZE,
    MEMORY_MAX_PAGES] at hx ⊢
  omega

theorem MapOk.alloc (h : MapOk b mem holder) (ha : MemoryAllocPage mem = some (page, mem'))
    (hn : mem.nfreepages ≠ 0) (p : Pid) :
    page ∈ b.pages ∧ holder page = none ∧ MapOk b mem' (update holder page (some p)) ∧
      mem'.nfreepages = mem.nfreepages - 1 := by
  obtain ⟨hfree, hbits, hcount, hmap, hcur⟩ := MemoryAllocPage.spec ha hn
  obtain ⟨hin, hnone⟩ := (h.free page).mp hfree
  refine ⟨hin, hnone, ⟨?_, ?_, ?_, hmap.trans h.map, .inr ?_⟩, hcount⟩
  · intro x
    rw [hbits, Bool.and_eq_true, decide_eq_true_eq, h.free]
    by_cases hx : x = page
    · subst hx; simp
    · simp [hx]
  · intro x hx
    by_cases hxp : x = page
    · exact hxp ▸ hin
    · exact h.held x (by simpa [hxp] using hx)
  · have herase : (b.pages.filter fun x => update holder page (some p) x = none) =
        (b.pages.filter fun x => holder x = none).erase page := by
      ext x
      by_cases hx : x = page
      · subst hx; simp
      · simp [hx]
    rw [herase, Finset.card_erase_of_mem (by simp [hin, hnone]), hcount, h.count]
  · rw [hcur, hmap, h.map]
    simp only [Boot.pages, Finset.mem_Ico] at hin
    omega

/-- While pages are free, one is found. -/
theorem MapOk.exists (h : MapOk b mem holder) (hn : mem.nfreepages ≠ 0) :
    ∃ page mem', MemoryAllocPage mem = some (page, mem') := by
  obtain ⟨x, hx⟩ : (b.pages.filter fun x => holder x = none).Nonempty := by
    rw [← Finset.card_pos, ← h.count]
    omega
  rw [Finset.mem_filter] at hx
  have hin := hx.1
  simp only [Boot.pages, Finset.mem_Ico] at hin
  have hmap := h.map
  refine MemoryAllocPage.exists hn ?_ (x := x) (by omega) ((h.free x).mpr hx)
  rcases h.cursor with h0 | h0
  · omega
  · exact h0

theorem MapOk.release (h : MapOk b mem holder) (hp : holder page = some p) :
    MapOk b (MemoryFreePage page mem) (update holder page none) := by
  have hin := h.held page (by simp [hp])
  refine ⟨?_, ?_, ?_, h.map, h.cursor⟩
  · intro x
    rw [freeBit_freePage, Bool.or_eq_true, decide_eq_true_eq, h.free]
    by_cases hx : x = page
    · subst hx; simp [hin]
    · simp [hx]
  · intro x hx
    by_cases hxp : x = page
    · exact hxp ▸ hin
    · exact h.held x (by simpa [hxp] using hx)
  · have hinsert : (b.pages.filter fun x => update holder page none x = none) =
        insert page (b.pages.filter fun x => holder x = none) := by
      ext x
      by_cases hx : x = page
      · subst hx; simp [hin]
      · simp [hx]
    rw [hinsert, Finset.card_insert_of_notMem (by simp [hp]), nfreepages_freePage, h.count]

/-- At the start no page is held. -/
theorem MapOk.start (b : Boot) :
    MapOk b (MemoryModuleInit b.memsize b.lastosaddress zeroKernel.mem) fun _ => none := by
  obtain ⟨h1, h2, h3, h4⟩ := MemoryModuleInit.spec (m := zeroKernel.mem) b.memsize
    b.lastosaddress fun _ => rfl
  refine ⟨fun x => ?_, by simp, ?_, h3, .inl h4⟩
  · simp [h1, Boot.pages]
  · simp [h2, Boot.pages]

/-! ## The pages of one process -/

/-- The memory stays, and so do the live processes. -/
theorem Owned.frozen (h : Owned b k live holder) (hf : Frozen k k')
    (hl : ∀ p, live' p ↔ live p) : Owned b k' live' holder := by
  have hpcb : ∀ p, (k'.pcbs p).userPage = (k.pcbs p).userPage ∧
      (k'.pcbs p).stackPage = (k.pcbs p).stackPage := by
    intro p
    obtain ⟨_, h1, h2⟩ := hf.maps p
    simp only [PCB.userPage, PCB.stackPage, h1, h2, and_self]
  refine ⟨hf.mem ▸ h.map, fun x p hx => (hl p).mpr (h.alive x p hx), ?_, ?_, ?_, ?_⟩
  · intro p hp
    rw [(hf.maps p).1]
    exact h.npages p ((hl p).mp hp)
  · intro p hp
    rw [(hpcb p).1, (hpcb p).2]
    exact h.distinct p ((hl p).mp hp)
  · intro p hp x
    rw [(hpcb p).1, (hpcb p).2]
    exact h.pages p ((hl p).mp hp) x
  · rw [hf.spages]
    exact h.shared

/-- With no page shared, the memory of a process is its two pages. -/
theorem freeMemory.unshared (hs : ∀ i, (k.spages i).page = 0) (hn : (k.pcbs p).npages = 1)
    (hu : (k.pcbs p).userPage ≠ 0) :
    freeMemory p k = .ok ((), { k with
      mem := MemoryFreePage (k.pcbs p).stackPage (MemoryFreePage (k.pcbs p).userPage k.mem) }) := by
  have hpte : (k.pcbs p).pte 0 = some ((k.pcbs p).pagetable 0) :=
    (k.pcbs p).pte_eq 0
  have hpage : ((k.pcbs p).pagetable 0).toNat / MEMORY_PAGE_SIZE ≠ 0 := by
    rw [← pteToPageNumber_eq]
    exact hu
  have hnone : ∀ page, page ≠ 0 → findShared { k with intrs := 15 } page = none := by
    intro page hpage
    rw [findShared, List.find?_eq_none]
    intro i _
    simpa [hs i] using Ne.symm hpage
  have hshared : MemoryFreeSharedPte p 0 k = .ok (-1, k) := by
    simp only [MemoryFreeSharedPte, K.bind_run, K.read_run, DisableIntrs, RestoreIntrs, SetIntrs,
      hpte, deref, K.pure_run, if_neg hpage, hnone _ hpage]
  simp only [freeMemory, K.bind_run, K.read_run, hn, List.range_succ, List.range_zero,
    List.nil_append, freeSharedPtes, hshared, K.pure_run, freePtes, hpte, deref, freePage_run,
    freePte_run, PCB.userPage, pteToPageNumber_eq]
  rfl

theorem Owned.user_ne (h : Owned b k live holder) (hp : live p) : (k.pcbs p).userPage ≠ 0 := by
  have hh : holder (k.pcbs p).userPage = some p := (h.pages p hp _).mpr (.inl rfl)
  exact (b.pages_ok (h.map.held _ (by simp [hh]))).1

/-- A process gives both of its pages back. -/
theorem Owned.release (h : Owned b k live holder) (hp : live p)
    (hrun : freeMemory p k = .ok ((), k')) :
    ∃ holder', Owned b k' (fun q => live q ∧ q ≠ p) holder' := by
  rw [freeMemory.unshared h.shared (h.npages p hp) (h.user_ne hp)] at hrun
  obtain ⟨_, rfl⟩ := Prod.mk.inj (Except.ok.inj hrun)
  have hu : holder (k.pcbs p).userPage = some p := (h.pages p hp _).mpr (.inl rfl)
  have hs : holder (k.pcbs p).stackPage = some p := (h.pages p hp _).mpr (.inr rfl)
  have hs' : update holder (k.pcbs p).userPage none (k.pcbs p).stackPage = some p := by
    rw [update_of_ne (Ne.symm (h.distinct p hp))]
    exact hs
  have hmap := (h.map.release hu).release hs'
  have hother : ∀ x q, q ≠ p → (update (update holder (k.pcbs p).userPage none)
      (k.pcbs p).stackPage none x = some q ↔ holder x = some q) := by
    intro x q hq
    by_cases h1 : x = (k.pcbs p).stackPage
    · subst h1
      simp [hs, Ne.symm hq]
    · by_cases h2 : x = (k.pcbs p).userPage
      · subst h2
        simp [h1, hu, Ne.symm hq]
      · simp [h1, h2]
  refine ⟨_, hmap, ?_, fun q hq => h.npages q hq.1, fun q hq => h.distinct q hq.1, ?_, h.shared⟩
  · intro x q hx
    by_cases hq : q = p
    · -- the process holds nothing any more
      subst hq
      exfalso
      by_cases h1 : x = (k.pcbs q).stackPage
      · simp [h1] at hx
      · by_cases h2 : x = (k.pcbs q).userPage
        · simp [h2, h.distinct q hp] at hx
        · rw [update_of_ne h1, update_of_ne h2, h.pages q hp] at hx
          exact hx.elim h2 h1
    · exact ⟨h.alive x q ((hother x q hq).mp hx), hq⟩
  · intro q hq x
    rw [hother x q hq.2]
    exact h.pages q hq.1 x

theorem PCB.fresh_pages (pcb : PCB) {stack : Nat} (hp : page < MEMORY_MAX_PAGES)
    (hs : stack < MEMORY_MAX_PAGES) :
    (pcb.fresh page stack).userPage = page ∧ (pcb.fresh page stack).stackPage = stack := by
  constructor
  · rw [PCB.userPage, pteToPageNumber_eq]
    simp [PCB.fresh, setupPte_toNat hp]
  · simp only [PCB.stackPage, PCB.fresh, BitVec.toNat_ofNat, MEMORY_PAGE_SIZE,
      MEMORY_MAX_PAGES] at hs ⊢
    omega

/-- A new process takes two pages. -/
theorem Owned.take (h : Owned b k live holder) (hp : ¬ live p)
    (hrun : forkMemory p k = .ok ((), k')) :
    ∃ holder', Owned b k' (fun q => live q ∨ q = p) holder' := by
  obtain ⟨page, stack, m1, m2, ha, hpage, hb, hstack, rfl⟩ := (forkMemory.ok_iff p k k').mp hrun
  obtain ⟨hin1, hnone1, hmap1, _⟩ := h.map.alloc ha (MemoryAllocPage.pos ha hpage) p
  obtain ⟨hin2, hnone2, hmap2, _⟩ := hmap1.alloc hb (MemoryAllocPage.pos hb hstack) p
  have hne : page ≠ stack := by
    rintro rfl
    simp at hnone2
  obtain ⟨huser, hstk⟩ := PCB.fresh_pages (k.pcbs p) (b.pages_ok hin1).2 (b.pages_ok hin2).2
  have hnone2' : holder stack = none := by simpa [Ne.symm hne] using hnone2
  have hother : ∀ x q, q ≠ p → (update (update holder page (some p)) stack (some p) x = some q ↔
      holder x = some q) := by
    intro x q hq
    by_cases h1 : x = stack
    · subst h1
      simp [hnone2', Ne.symm hq]
    · by_cases h2 : x = page
      · subst h2
        simp [h1, hnone1, Ne.symm hq]
      · simp [h1, h2]
  refine ⟨_, hmap2, ?_, ?_, ?_, ?_, h.shared⟩
  · intro x q hx
    by_cases hq : q = p
    · exact .inr hq
    · exact .inl (h.alive x q ((hother x q hq).mp hx))
  all_goals intro q hq
  all_goals by_cases hqp : q = p
  · subst hqp; simp [PCB.fresh]
  · simpa [hqp] using h.npages q (hq.resolve_right hqp)
  · subst hqp; simpa [huser, hstk] using hne
  · simpa [hqp] using h.distinct q (hq.resolve_right hqp)
  · intro x
    subst hqp
    simp only [update_self, huser, hstk]
    by_cases h1 : x = stack
    · simp [h1]
    · by_cases h2 : x = page
      · simp [h2, hne]
      · simp only [update_of_ne h1, update_of_ne h2, h1, h2, or_self, iff_false]
        exact fun hx => hp (h.alive x q hx)
  · intro x
    rw [hother x q hqp]
    simpa [hqp] using h.pages q (hq.resolve_right hqp) x

/-! ## The machine -/

/-- The process was created and has not ended. -/
def Machine.Live (m : Machine) (p : Pid) : Prop :=
  p ∈ m.queue .runQueue ∨ p ∈ m.queue .waitQueue

theorem Good.live_iff (h : Good m) (p : Pid) : m.Live p ↔ p ∉ m.queue .freepcbs := by
  obtain ⟨home, waits, hsl⟩ := h.inv.sleepers
  have hmem := fun q hq => hsl.placed.mem_proc (q := q) hq p
  simp only [system_queue] at hmem
  have hp := hsl.placed.isProc p
  have hz := hsl.zombie p
  rw [Machine.Live, hmem .runQueue rfl, hmem .waitQueue rfl, hmem .freepcbs rfl]
  cases hh : home p <;> simp_all

theorem free_not_touched (a : System) (c : Call) : .freepcbs ∉ a.callTouches c := by
  cases c with
  | condCreate h | condWait h =>
    simp only [System.callTouches]
    split <;> simp
  | _ => simp [System.callTouches]

/-- Only the creation and the end of a process change the list of the free
ones. -/
theorem Good.free_step (h : Good m) (hs : m.Step l m') (he : l.1.event ≠ .exit)
    (hf : ∀ isUser loads, l.1.event ≠ .fork isUser loads) :
    m'.queue .freepcbs = m.queue .freepcbs := by
  obtain ⟨_, v, hv⟩ := (h.step hs).1
  refine System.Same.step (q := .freepcbs) hv ?_
  cases hev : l.1.event with
  | exit => exact absurd hev he
  | fork isUser loads => exact absurd hev (hf isUser loads)
  | call c => exact free_not_touched m.system c
  | resume =>
    simp only [System.touches]
    split <;> simp
  | timer | contextSwitch => simp [System.touches]

/-- A process that ends gives its pages back. -/
theorem Owned.exit_step (h : Owned b m.kernel (fun p => p ∉ m.queue .freepcbs) holder)
    (hg : Good m) (hs : m.Step l m') (he : l.1.event = .exit) :
    ∃ holder', Owned b m'.kernel (fun p => p ∉ m'.queue .freepcbs) holder' := by
  obtain ⟨⟨_, v, hv⟩, hf⟩ := hg.step hs
  have hmem := hf.memory
  simp only [he] at hv
  rw [he] at hmem
  obtain ⟨p, k0, hp, hfrozen, hfree⟩ := hmem
  obtain ⟨ps, hq⟩ := current_cons hp
  rw [system_queue] at hq
  have hlive : p ∉ m.queue .freepcbs := by
    rw [← hg.live_iff]
    exact .inl (by rw [hq]; simp)
  obtain ⟨holder', h'⟩ := (h.frozen hfrozen fun _ => Iff.rfl).release hlive hfree
  refine ⟨holder', h'.frozen (.refl _) fun r => ?_⟩
  have hqueue : m'.queue .freepcbs = m.queue .freepcbs ++ [p] := by
    rcases ps with _ | ⟨r, rs⟩
    · simp [System.step, hq] at hv
    · simp only [System.step, system_queue, hq] at hv
      obtain ⟨hsys, _⟩ := Prod.mk.inj (Option.some.inj hv)
      rw [← system_queue, ← hsys]
      simp [moveLast]
  simp [hqueue]

/-- A fork takes the pages of its process, and a fork whose program does not
load gives them back. -/
theorem Owned.fork_step (h : Owned b m.kernel (fun p => p ∉ m.queue .freepcbs) holder)
    (hg : Good m) (hs : m.Step l m') {isUser loads : Bool}
    (he : l.1.event = .fork isUser loads) :
    ∃ holder', Owned b m'.kernel (fun p => p ∉ m'.queue .freepcbs) holder' := by
  obtain ⟨⟨_, v, hv⟩, hf⟩ := hg.step hs
  have hmem := hf.memory
  simp only [he] at hv
  rw [he] at hmem
  obtain ⟨p, k0, k1, hp, hfrozen, hfork, hrest⟩ := hmem
  obtain ⟨ps, hq⟩ := List.head?_eq_some_iff.mp hp
  rw [system_queue] at hq
  obtain ⟨home, waits, hsl⟩ := hg.inv.sleepers
  have hnd : p ∉ ps := by
    have := hsl.placed.nodup .freepcbs
    rw [system_queue, hq, List.nodup_cons] at this
    exact this.1
  obtain ⟨holder1, h1⟩ := (h.frozen hfrozen fun _ => Iff.rfl).take (by simp [hq]) hfork
  simp only [System.step, system_queue, hq] at hv
  by_cases hfail : (isUser && !loads) = true
  · rw [if_pos hfail] at hv hrest
    obtain ⟨hsys, _⟩ := Prod.mk.inj (Option.some.inj hv)
    obtain ⟨k2, hfrozen2, hfree⟩ := hrest
    obtain ⟨holder2, h2⟩ := (h1.frozen hfrozen2 fun _ => Iff.rfl).release (.inr rfl) hfree
    refine ⟨holder2, h2.frozen (.refl _) fun r => ?_⟩
    have hqueue : m'.queue .freepcbs = ps ++ [p] := by
      rw [← system_queue, ← hsys]
      simp [moveLast, hq]
    rw [hqueue, hq]
    by_cases hr : r = p <;> simp [hr]
  · rw [if_neg hfail] at hv hrest
    obtain ⟨hsys, _⟩ := Prod.mk.inj (Option.some.inj hv)
    refine ⟨holder1, h1.frozen hrest fun r => ?_⟩
    have hqueue : m'.queue .freepcbs = ps := by
      rw [← system_queue, ← hsys]
      simp [moveLast, hq]
    rw [hqueue, hq]
    by_cases hr : r = p <;> simp [hr, hnd]

/-- Each step that shares no page keeps the pages owned. -/
theorem Owned.step (hg : Good m) (hs : m.Step l m')
    (h : Owned b m.kernel (fun p => p ∉ m.queue .freepcbs) holder)
    (hshare : l.1.event ≠ .call .shareCreatePage) :
    ∃ holder', Owned b m'.kernel (fun p => p ∉ m'.queue .freepcbs) holder' := by
  have hmem := (hg.step hs).2.memory
  have hkeep : l.1.event ≠ .exit → (∀ isUser loads, l.1.event ≠ .fork isUser loads) →
      Frozen m.kernel m'.kernel →
      ∃ holder', Owned b m'.kernel (fun p => p ∉ m'.queue .freepcbs) holder' := by
    intro h1 h2 hfrozen
    refine ⟨holder, h.frozen hfrozen fun p => ?_⟩
    rw [hg.free_step hs h1 h2]
  cases he : l.1.event with
  | timer => exact hkeep (by simp [he]) (by simp [he]) (by rwa [he] at hmem)
  | contextSwitch => exact hkeep (by simp [he]) (by simp [he]) (by rwa [he] at hmem)
  | resume => exact hkeep (by simp [he]) (by simp [he]) (by rwa [he] at hmem)
  | call c =>
    refine hkeep (by simp [he]) (by simp [he]) ?_
    rw [he] at hmem hshare
    cases c with
    | shareCreatePage => exact absurd rfl hshare
    | shareMapPage handle => exact hmem h.shared
    | _ => exact hmem
  | exit => exact h.exit_step hg hs he
  | fork isUser loads => exact h.fork_step hg hs he

theorem Owned.start {m : Machine} (hb : boot b = .ok m) :
    Owned b m.kernel (fun p => p ∉ m.queue .freepcbs) fun _ => none := by
  obtain ⟨m1, hb1, _, hsys, hmem, hshared⟩ := boot_good b
  obtain rfl : m = m1 := Except.ok.inj (hb.symm.trans hb1)
  have hfree : ∀ p, p ∈ m.queue .freepcbs := by
    intro p
    rw [← system_queue, hsys]
    simp [System.start]
  refine ⟨hmem ▸ MapOk.start b, by simp, ?_, ?_, ?_, hshared⟩
  all_goals exact fun p hp => absurd (hfree p) hp

/-- In a run that shares no page, the pages stay owned. -/
theorem Owned.run {m0 : Machine} {tr : List (Move Machine Label)} (hb : boot b = .ok m0)
    (hr : Run Machine.Step m0 tr m)
    (hshare : ∀ mv ∈ tr, mv.label.1.event ≠ .call .shareCreatePage) :
    ∃ holder, Owned b m.kernel (fun p => p ∉ m.queue .freepcbs) holder := by
  refine hr.rule (I := fun tr m => (∀ mv ∈ tr, mv.label.1.event ≠ .call .shareCreatePage) →
    ∃ holder, Owned b m.kernel (fun p => p ∉ m.queue .freepcbs) holder) ?_ ?_ hshare
  · exact fun _ => ⟨_, .start hb⟩
  · intro tr t l u ht ih hs hshare
    obtain ⟨holder, h⟩ := ih fun mv hmv => hshare mv (by simp [hmv])
    exact h.step (Reachable.good ⟨b, m0, tr, hb, ht⟩) hs (hshare ⟨t, l, u⟩ (by simp))

end dlxos
