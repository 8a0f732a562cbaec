-- The physical pages. In a run that shares no page, each page past the kernel
-- is free, or it is one of the two pages of one live process.
import DlxOs.Exec

namespace dlxos

open Function runs

variable {b : Boot} {m : Machine}

/-- The page is one of the two pages of the process. -/
def PCB.Holds (b : PCB) (x : Nat) : Prop := x = b.userPage ∨ x = b.stackPage

/-- The pages past the kernel are partitioned into the free ones and the two
distinct pages of each live process. -/
structure Partitioned (b : Boot) (m : Machine) : Prop where
  free_inside : ∀ x, freeBit m.kernel.mem x = true → x ∈ b.pages
  held_inside : ∀ p, m.Live p → ∀ x, (m.kernel.pcbs p).Holds x → x ∈ b.pages
  cover : ∀ x ∈ b.pages, freeBit m.kernel.mem x = true ∨ ∃ p, m.Live p ∧ (m.kernel.pcbs p).Holds x
  distinct : ∀ p, m.Live p → (m.kernel.pcbs p).userPage ≠ (m.kernel.pcbs p).stackPage
  one_process : ∀ p q x, m.Live p → m.Live q → (m.kernel.pcbs p).Holds x →
    (m.kernel.pcbs q).Holds x → p = q
  not_free : ∀ p x, m.Live p → (m.kernel.pcbs p).Holds x → freeBit m.kernel.mem x = false
  count : m.kernel.mem.nfreepages =
    (b.pages.filter fun x => freeBit m.kernel.mem x = true).card
  idle : (∀ p, ¬ m.Live p) →
    (∀ x, freeBit m.kernel.mem x =
      freeBit (MemoryModuleInit b.memsize b.lastosaddress zeroKernel.mem) x) ∧
    m.kernel.mem.nfreepages =
      (MemoryModuleInit b.memsize b.lastosaddress zeroKernel.mem).nfreepages

theorem pages_are_partitioned {m0 : Machine} {tr : List (Move Machine Label)}
    (hb : boot b = .ok m0) (hr : Run Machine.Step m0 tr m)
    (hshare : ∀ mv ∈ tr, mv.label.1.event ≠ .call .shareCreatePage) : Partitioned b m := by
  obtain ⟨holder, h⟩ := Owned.run hb hr hshare
  have hlive := (Reachable.good ⟨b, m0, tr, hb, hr⟩).live_iff
  have hpages : ∀ p, m.Live p → ∀ x, holder x = some p ↔ (m.kernel.pcbs p).Holds x :=
    fun p hp => h.pages p ((hlive p).mp hp)
  refine ⟨fun x hx => ((h.map.free x).mp hx).1, ?_, ?_,
    fun p hp => h.distinct p ((hlive p).mp hp), ?_, ?_, ?_, ?_⟩
  · intro p hp x hx
    exact h.map.held x (by rw [(hpages p hp x).mpr hx]; simp)
  · intro x hx
    rcases hh : holder x with _ | p
    · exact .inl ((h.map.free x).mpr ⟨hx, hh⟩)
    · have hp := (hlive p).mpr (h.alive x p hh)
      exact .inr ⟨p, hp, (hpages p hp x).mp hh⟩
  · intro p q x hp hq hx hx'
    rw [← hpages p hp] at hx
    rw [← hpages q hq, hx] at hx'
    exact Option.some.inj hx'
  · intro p x hp hx
    rw [← Bool.not_eq_true, h.map.free, (hpages p hp x).mpr hx]
    simp
  · have hfilter : (b.pages.filter fun x => holder x = none) =
        b.pages.filter fun x => freeBit m.kernel.mem x = true :=
      Finset.filter_congr fun x hx => by rw [h.map.free]; simp [hx]
    rw [h.map.count, hfilter]
  · intro hnone
    have hempty : ∀ x, holder x = none := by
      intro x
      rcases hh : holder x with _ | p
      · rfl
      · exact absurd ((hlive p).mpr (h.alive x p hh)) (hnone p)
    obtain ⟨h1, h2, _⟩ := MemoryModuleInit.spec (m := zeroKernel.mem) b.memsize
      b.lastosaddress fun _ => rfl
    constructor
    · intro x
      rw [h1, Bool.eq_iff_iff, h.map.free, decide_eq_true_eq]
      simp [hempty, Boot.pages]
    · rw [h2, h.map.count]
      simp [hempty, Boot.pages]

/-- A failing fork, an exit, and a sleeper. -/
def pagesRun : List Event :=
  [.fork true true, .fork true true, .fork true false, .fork false true, .call (.semCreate 0),
    .call (.semWait 0), .exit, .fork true true]

theorem pages_of_a_run : ∃ m0 tr m, boot Boot.small = .ok m0 ∧ Run Machine.Step m0 tr m ∧
    m.queue .runQueue = [28, 27] ∧ m.queue .waitQueue = [31] ∧ Partitioned Boot.small m := by
  obtain ⟨m0, tr, m, hb, hr, hshare, hrun, hwait⟩ := exists_run pagesRun
    (fun ms a => (∀ mv ∈ ms, mv.label.1 ≠ .call .shareCreatePage) ∧
      a.queue .runQueue = [28, 27] ∧ a.queue .waitQueue = [31]) (by decide +kernel)
  refine ⟨m0, tr, m, hb, hr, hrun, hwait, pages_are_partitioned hb hr fun mv hmv => ?_⟩
  exact hshare _ (List.mem_map_of_mem hmv)

end dlxos
