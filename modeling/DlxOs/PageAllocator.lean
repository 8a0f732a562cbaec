-- Any sequence of allocations and releases of pages, from `MemoryModuleInit`
-- on, in which only a page that is out is given back.
import DlxOs.PageOwners

namespace dlxos

open Function

variable {b : Boot} {m m' : Memory} {out : Finset Nat} {page : Nat}

/-! ## The runs -/

/-- The runs of the allocator. The set holds the pages that were handed out and
not given back. An allocation that returns 0 has handed out nothing. -/
inductive PageRun (b : Boot) : Memory → Finset Nat → Prop where
  | start : PageRun b (MemoryModuleInit b.memsize b.lastosaddress zeroKernel.mem) ∅
  | alloc {m m' : Memory} {out : Finset Nat} {page : Nat} : PageRun b m out →
    MemoryAllocPage m = some (page, m') → PageRun b m' (if page = 0 then out else insert page out)
  | free {m : Memory} {out : Finset Nat} {page : Nat} : PageRun b m out → page ∈ out →
    PageRun b (MemoryFreePage page m) (out.erase page)

/-- The number of bits that are set in the map. -/
def setBits (m : Memory) : Nat :=
  ((Finset.range MEMORY_MAX_PAGES).filter fun x => freeBit m x = true).card

/-- Several allocations in a row, with the pages that they return. -/
def allocPages : Nat → Memory → Option (List Nat × Memory)
  | 0, m => some ([], m)
  | n + 1, m => do
    let (page, m) ← MemoryAllocPage m
    let (pages, m) ← allocPages n m
    some (page :: pages, m)

/-! ## The pages that are out -/

/-- The map does not tell who holds a page: here one process stands for all. -/
def holderOf (out : Finset Nat) (x : Nat) : Option Pid :=
  if x ∈ out then some (0 : Pid) else none

theorem holderOf_eq_none {x : Nat} : holderOf out x = none ↔ x ∉ out := by
  unfold holderOf
  split_ifs with hx <;> simp [hx]

theorem holderOf_insert :
    update (holderOf out) page (some (0 : Pid)) = holderOf (insert page out) := by
  funext x
  unfold holderOf
  by_cases hx : x = page <;> simp [hx]

theorem holderOf_erase : update (holderOf out) page none = holderOf (out.erase page) := by
  funext x
  unfold holderOf
  by_cases hx : x = page <;> simp [hx]

theorem holderOf_empty : holderOf ∅ = fun _ => none := by
  funext x
  exact holderOf_eq_none.mpr (Finset.notMem_empty x)

theorem PageRun.mapOk (h : PageRun b m out) : MapOk b m (holderOf out) := by
  induction h with
  | start =>
    rw [holderOf_empty]
    exact MapOk.start b
  | @alloc m m' out page _ halloc ih =>
    by_cases hn : m.nfreepages = 0
    · rw [MemoryAllocPage, if_pos hn] at halloc
      obtain ⟨rfl, rfl⟩ := Prod.mk.inj (Option.some.inj halloc)
      simpa using ih
    · obtain ⟨hin, _, hmap, _⟩ := ih.alloc halloc hn 0
      rw [if_neg (b.pages_ok hin).1, ← holderOf_insert]
      exact hmap
  | free _ hout ih =>
    rw [← holderOf_erase]
    exact ih.release (if_pos hout)

theorem PageRun.freeBit_iff (h : PageRun b m out) {x : Nat} :
    freeBit m x = true ↔ x ∈ b.pages ∧ x ∉ out := by
  rw [h.mapOk.free, holderOf_eq_none]

theorem PageRun.subset (h : PageRun b m out) : out ⊆ b.pages := by
  intro x hx
  refine h.mapOk.held x fun hnone => ?_
  exact holderOf_eq_none.mp hnone hx

theorem PageRun.count (h : PageRun b m out) : m.nfreepages = (b.pages \ out).card := by
  have hfilter : (b.pages.filter fun x => holderOf out x = none) = b.pages \ out := by
    ext x
    simp [holderOf_eq_none]
  rw [h.mapOk.count, hfilter]

/-- The counter is the number of bits. -/
theorem PageRun.count_setBits (h : PageRun b m out) : m.nfreepages = setBits m := by
  have hbits : ((Finset.range MEMORY_MAX_PAGES).filter fun x => freeBit m x = true) =
      b.pages \ out := by
    ext x
    rw [Finset.mem_filter, h.freeBit_iff, Finset.mem_sdiff, Finset.mem_range]
    exact ⟨fun hx => hx.2, fun hx => ⟨(b.pages_ok hx.1).2, hx⟩⟩
  unfold setBits
  rw [h.count, hbits]

theorem PageRun.full_iff (h : PageRun b m out) : m.nfreepages = 0 ↔ out = b.pages := by
  rw [h.count, Finset.card_eq_zero, Finset.sdiff_eq_empty_iff_subset]
  exact ⟨fun hsub => Finset.Subset.antisymm h.subset hsub, fun he => he ▸ Finset.Subset.refl _⟩

/-! ## One allocation -/

/-- What `MemoryAllocPage` does: it returns 0 and changes nothing, or it takes one
free page. -/
structure Allocates (m m' : Memory) (out : Finset Nat) (page : Nat) : Prop where
  fresh : page ∉ out
  was : freeBit m page = true
  now : ∀ x, freeBit m' x = if x = page then false else freeBit m x

theorem PageRun.allocPage (h : PageRun b m out) :
    ∃ page m', MemoryAllocPage m = some (page, m') ∧ (page = 0 ↔ out = b.pages) ∧
      (page = 0 → m' = m) ∧ (page ≠ 0 → Allocates m m' out page) := by
  by_cases hn : m.nfreepages = 0
  · refine ⟨0, m, ?_, iff_of_true rfl (h.full_iff.mp hn), fun _ => rfl, fun h0 => absurd rfl h0⟩
    rw [MemoryAllocPage, if_pos hn]
  · obtain ⟨page, m', halloc⟩ := h.mapOk.exists hn
    obtain ⟨hfree, hbits, -⟩ := MemoryAllocPage.spec halloc hn
    obtain ⟨hin, hout⟩ := h.freeBit_iff.mp hfree
    have hpage := (b.pages_ok hin).1
    refine ⟨page, m', halloc, iff_of_false hpage (mt h.full_iff.mpr hn),
      fun h0 => absurd h0 hpage, fun _ => ⟨hout, hfree, fun x => ?_⟩⟩
    rw [hbits]
    by_cases hx : x = page <;> simp [hx]

/-- As many allocations as the counter says hand out every free page. -/
theorem PageRun.allocPages {n : Nat} (h : PageRun b m out) (hn : m.nfreepages = n) :
    ∃ pages m', allocPages n m = some (pages, m') ∧ ∀ x, freeBit m x = true → x ∈ pages := by
  induction n generalizing m out with
  | zero =>
    refine ⟨[], m, rfl, fun x hx => ?_⟩
    obtain ⟨hin, hout⟩ := h.freeBit_iff.mp hx
    exact absurd ((h.full_iff.mp hn).symm ▸ hin) hout
  | succ n ih =>
    obtain ⟨page, m', halloc, hzero, -, htake⟩ := h.allocPage
    have hpage : page ≠ 0 := fun h0 => by
      have := h.full_iff.mpr (hzero.mp h0)
      omega
    have hnext := h.alloc halloc
    have hcount := (MemoryAllocPage.spec halloc (by omega)).2.2.1
    obtain ⟨pages, m'', hrest, hall⟩ := ih hnext (by omega)
    refine ⟨page :: pages, m'', ?_, fun x hx => ?_⟩
    · unfold dlxos.allocPages
      simp [halloc, hrest]
    · by_cases hxp : x = page
      · simp [hxp]
      · have hx' : freeBit m' x = true := by rw [(htake hpage).now, if_neg hxp, hx]
        simp [hall x hx']

/-! ## Every run -/

/-- The allocator in every run: the counter, the bits and the pages that are out
agree, every call ends, and a page that is given back is handed out again. -/
theorem page_allocator (h : PageRun b m out) :
    m.nfreepages = setBits m ∧ (∀ x, freeBit m x = true → x ∈ b.pages ∧ x ∉ out) ∧
      (∀ x ∈ out, x ∈ b.pages ∧ x ≠ 0) ∧
      (∃ page m', MemoryAllocPage m = some (page, m') ∧ (page = 0 ↔ out = b.pages) ∧
        (page = 0 → m' = m) ∧ (page ≠ 0 → Allocates m m' out page)) ∧
      ∀ page ∈ out, ∃ pages m', allocPages (m.nfreepages + 1) (MemoryFreePage page m) =
        some (pages, m') ∧ page ∈ pages := by
  refine ⟨h.count_setBits, fun x => h.freeBit_iff.mp, fun x hx => ?_, h.allocPage, ?_⟩
  · have hin := h.subset hx
    exact ⟨hin, (b.pages_ok hin).1⟩
  · intro page hpage
    obtain ⟨pages, m', hrest, hall⟩ := (h.free hpage).allocPages (nfreepages_freePage page)
    refine ⟨pages, m', hrest, hall page ?_⟩
    rw [freeBit_freePage]
    simp

/-- A machine of four pages, where the kernel takes the first. -/
def Boot.fourPages : Boot where
  memsize := 262144
  lastosaddress := 8
  memsize_lt := by decide
  os_ge := by decide
  os_lt := by decide

/-- The first page of that machine is handed out, and again after its release. -/
theorem page_allocator_of_four : ∃ page m' pages m'',
    MemoryAllocPage (MemoryModuleInit 262144 8 zeroKernel.mem) = some (page, m') ∧ page ≠ 0 ∧
      m'.nfreepages = setBits m' ∧
      allocPages (m'.nfreepages + 1) (MemoryFreePage page m') = some (pages, m'') ∧
      page ∈ pages := by
  have hstart : PageRun Boot.fourPages (MemoryModuleInit 262144 8 zeroKernel.mem) ∅ := .start
  obtain ⟨-, -, -, ⟨page, m', halloc, hzero, -⟩, -⟩ := page_allocator hstart
  have hpage : page ≠ 0 := by
    rw [ne_eq, hzero]
    decide
  have hrun := hstart.alloc halloc
  rw [if_neg hpage] at hrun
  obtain ⟨hcount, -, -, -, hagain⟩ := page_allocator hrun
  obtain ⟨pages, m'', hpages, hin⟩ := hagain page (by simp)
  exact ⟨page, m', pages, m'', halloc, hpage, hcount, hpages, hin⟩

end dlxos
