-- The map of free pages, read one page at a time. `freeBit m page` is the bit
-- of a page, and each routine of the allocator is described by the bits that
-- it leaves.
import DlxOs.Memory

namespace dlxos

open Function

/-- The map marks the page as free. -/
def freeBit (m : Memory) (page : Nat) : Bool := (m.freepages (page / 32)).getLsbD (page % 32)

variable {m m' : Memory}

/-! ## One bit of one word -/

theorem invert_eq (n : Word) : invert n = ~~~n := by
  rw [invert, show (0xffffffff#32) = BitVec.allOnes 32 from rfl, BitVec.xor_allOnes]

theorem getLsbD_bit {i j : Nat} (hi : i < 32) (hj : j < 32) :
    (1#32 <<< j).getLsbD i = decide (i = j) := by
  rw [BitVec.getLsbD_shiftLeft, BitVec.getLsbD_one]
  simp only [hi, Nat.zero_lt_succ, decide_true, Bool.true_and]
  by_cases h : i = j
  · subst h; simp
  · rw [decide_eq_false h]
    rcases Nat.lt_or_ge i j with h' | h'
    · simp [h']
    · have : i - j ≠ 0 := by omega
      simp [this]

theorem getLsbD_set {w : Word} {i j : Nat} (hi : i < 32) (hj : j < 32) :
    ((w &&& invert (1#32 <<< j)) ||| (1#32 <<< j)).getLsbD i = (decide (i = j) || w.getLsbD i) := by
  rw [invert_eq, BitVec.getLsbD_or, BitVec.getLsbD_and, BitVec.getLsbD_not, getLsbD_bit hi hj]
  by_cases h : i = j <;> simp [h, hi]

theorem getLsbD_clear {w : Word} {i j : Nat} (hi : i < 32) (hj : j < 32) :
    (w &&& invert (1#32 <<< j)).getLsbD i = (decide (i ≠ j) && w.getLsbD i) := by
  rw [invert_eq, BitVec.getLsbD_and, BitVec.getLsbD_not, getLsbD_bit hi hj]
  by_cases h : i = j <;> simp [h, hi]

theorem and_bit_ne_zero {w : Word} {j : Nat} (hj : j < 32) :
    w &&& (1#32 <<< j) ≠ 0#32 ↔ w.getLsbD j = true := by
  constructor
  · intro h
    by_contra hb
    apply h
    apply BitVec.eq_of_getLsbD_eq
    intro i hi
    rw [BitVec.getLsbD_and, getLsbD_bit hi hj]
    by_cases hij : i = j
    · subst hij
      rw [Bool.not_eq_true] at hb
      simp [hb]
    · simp [hij]
  · intro h he
    have := congrArg (fun v => v.getLsbD j) he
    simp [BitVec.getLsbD_and, getLsbD_bit hj hj, h] at this

theorem exists_bit {w : Word} (hw : w ≠ 0#32) : ∃ j < 32, w.getLsbD j = true := by
  by_contra hb
  apply hw
  apply BitVec.eq_of_getLsbD_eq
  intro i hi
  by_contra hi'
  refine hb ⟨i, hi, ?_⟩
  simpa using hi'

/-- A page is given by its word and its bit. -/
theorem freeBit_word {wd bit : Nat} (hb : bit < 32) :
    freeBit m (wd * 32 + bit) = (m.freepages wd).getLsbD bit := by
  have h1 : (wd * 32 + bit) / 32 = wd := by omega
  have h2 : (wd * 32 + bit) % 32 = bit := by omega
  rw [freeBit, h1, h2]

/-- The words of the map are known by the bits of all pages. -/
theorem freepages_ext (h : ∀ x, freeBit m' x = freeBit m x) : m'.freepages = m.freepages := by
  funext wd
  refine BitVec.eq_of_getLsbD_eq fun i hi => ?_
  rw [← freeBit_word hi, ← freeBit_word hi, h]

/-! ## The routines -/

theorem freeBit_setFreemap (p x : Nat) :
    freeBit (MemorySetFreemap p 1#32 m) x = (decide (x = p) || freeBit m x) := by
  have hp : p % 32 < 32 := Nat.mod_lt _ (by decide)
  have hx : x % 32 < 32 := Nat.mod_lt _ (by decide)
  simp only [freeBit, MemorySetFreemap]
  by_cases hw : x / 32 = p / 32
  · rw [hw, update_self, getLsbD_set hx hp]
    have : x % 32 = p % 32 ↔ x = p := by omega
    simp [this]
  · have : x ≠ p := fun h => hw (by rw [h])
    simp [update_of_ne hw, this]

theorem freeBit_freePage (p x : Nat) :
    freeBit (MemoryFreePage p m) x = (decide (x = p) || freeBit m x) := freeBit_setFreemap p x

@[simp] theorem nfreepages_freePage (p : Nat) :
    (MemoryFreePage p m).nfreepages = m.nfreepages + 1 := rfl

theorem findWord_ne_zero {fuel start wd : Nat} (h : findWord m fuel start = some wd) :
    m.freepages wd ≠ 0#32 := by
  induction fuel generalizing start with
  | zero => cases h
  | succ fuel ih =>
    rw [findWord] at h
    split at h
    · rename_i hne
      exact Option.some.inj h ▸ hne
    · exact ih h

theorem findBit_spec {v : Word} {fuel bit j : Nat} (h : findBit v fuel bit = some j)
    (hb : bit + fuel ≤ 32) : j < 32 ∧ v.getLsbD j = true := by
  induction fuel generalizing bit with
  | zero => cases h
  | succ fuel ih =>
    rw [findBit] at h
    split at h
    · rename_i hne
      obtain rfl := Option.some.inj h
      have hj : bit < 32 := by omega
      exact ⟨hj, (and_bit_ne_zero hj).mp hne⟩
    · exact ih h (by omega)

theorem findBit_exists {v : Word} {fuel bit j : Nat} (hj : v.getLsbD j = true) (h1 : bit ≤ j)
    (h2 : j < bit + fuel) (h3 : bit + fuel ≤ 32) : ∃ i, findBit v fuel bit = some i := by
  induction fuel generalizing bit with
  | zero => omega
  | succ fuel ih =>
    rw [findBit]
    split
    · exact ⟨bit, rfl⟩
    · rename_i hne
      have : j ≠ bit := by
        rintro rfl
        exact hne ((and_bit_ne_zero (by omega)).mpr hj)
      exact ih (by omega) (by omega) (by omega)

/-- Page 0 is the answer where no page is free. -/
theorem MemoryAllocPage.pos {page : Nat} (h : MemoryAllocPage m = some (page, m'))
    (hp : page ≠ 0) : m.nfreepages ≠ 0 := by
  rintro hn
  rw [MemoryAllocPage, if_pos hn] at h
  obtain ⟨rfl, _⟩ := Prod.mk.inj (Option.some.inj h)
  exact hp rfl

/-- A page that was taken was free, and now it is not. -/
theorem MemoryAllocPage.spec {page : Nat} (h : MemoryAllocPage m = some (page, m'))
    (hn : m.nfreepages ≠ 0) :
    freeBit m page = true ∧ (∀ x, freeBit m' x = (decide (x ≠ page) && freeBit m x)) ∧
      m'.nfreepages = m.nfreepages - 1 ∧ m'.freemapmax = m.freemapmax ∧
      m'.mapnum = page / 32 := by
  rw [MemoryAllocPage, if_neg hn] at h
  simp only [Option.bind_eq_bind, Option.bind_eq_some_iff, Option.some.injEq] at h
  obtain ⟨wd, hwd, bit, hbit, he⟩ := h
  obtain ⟨rfl, rfl⟩ := Prod.mk.inj he
  obtain ⟨hlt, hset⟩ := findBit_spec hbit (by omega)
  refine ⟨by rw [freeBit_word hlt, hset], ?_, rfl, rfl, by simp only; omega⟩
  intro x
  have hx : x % 32 < 32 := Nat.mod_lt _ (by decide)
  simp only [freeBit]
  by_cases hw : x / 32 = wd
  · subst hw
    rw [update_self, getLsbD_clear hx hlt]
    have : x % 32 = bit ↔ x = x / 32 * 32 + bit := by omega
    simp only [ne_eq, this]
  · have : x ≠ wd * 32 + bit := by omega
    simp [update_of_ne hw, this]

/-- The cursor comes to a word that is not zero, wherever it starts. -/
theorem findWord_exists {start wd : Nat} (hs : start < m.freemapmax) (hw : wd < m.freemapmax)
    (hne : m.freepages wd ≠ 0#32) :
    ∃ i, findWord m (m.freemapmax + 1) start = some i ∧ i < m.freemapmax := by
  -- how many turns the cursor needs to come to `wd`
  have key : ∀ fuel start, start < m.freemapmax →
      (if start ≤ wd then wd - start else m.freemapmax - start + wd) < fuel →
      ∃ i, findWord m fuel start = some i ∧ i < m.freemapmax := by
    intro fuel
    induction fuel with
    | zero => intro start _ h; omega
    | succ fuel ih =>
      intro start hs hf
      rw [findWord]
      split
      · exact ⟨start, rfl, hs⟩
      · rename_i hz
        have hne' : start ≠ wd := by
          rintro rfl
          exact hz hne
        split
        · exact ih 0 (by omega) (by split at hf <;> simp only [Nat.zero_le, if_true] <;> omega)
        · refine ih (start + 1) (by omega) ?_
          split at hf <;> split <;> omega
  exact key _ start hs (by split <;> omega)

/-- With a free page in the map, a page is found. -/
theorem MemoryAllocPage.exists (hn : m.nfreepages ≠ 0) (hmap : m.mapnum < m.freemapmax) {x : Nat}
    (hx : x / 32 < m.freemapmax) (hfree : freeBit m x = true) :
    ∃ page m', MemoryAllocPage m = some (page, m') := by
  have hne : m.freepages (x / 32) ≠ 0#32 := by
    intro h0
    rw [freeBit, h0] at hfree
    simp at hfree
  obtain ⟨wd, hwd, _⟩ := findWord_exists hmap hx hne
  obtain ⟨j, hj, hset⟩ := exists_bit (findWord_ne_zero hwd)
  obtain ⟨bit, hbit⟩ := findBit_exists hset (Nat.zero_le j) (by omega : j < 0 + 32) (by omega)
  simp only [MemoryAllocPage, if_neg hn, hwd, Option.bind_eq_bind, Option.bind_some, hbit]
  exact ⟨_, _, rfl⟩

/-! ## Page table entries -/

theorem setupPte_toNat {page : Nat} (h : page < MEMORY_MAX_PAGES) :
    (MemorySetupPte page).toNat / MEMORY_PAGE_SIZE = page := by
  have hlt : page * MEMORY_PAGE_SIZE < 2 ^ 32 := by
    simp only [MEMORY_MAX_PAGES, MEMORY_PAGE_SIZE] at h ⊢; omega
  rw [MemorySetupPte, MEMORY_PTE_VALID, BitVec.toNat_or, BitVec.toNat_ofNat, Nat.mod_eq_of_lt hlt,
    MEMORY_PAGE_SIZE, show (65536 : Nat) = 2 ^ 16 from rfl, ← Nat.shiftRight_eq_div_pow,
    Nat.shiftRight_or_distrib, Nat.shiftRight_eq_div_pow, Nat.mul_div_cancel _ (by decide)]
  exact Nat.or_zero page

/-! ## The start -/

/-- The first page past the kernel. -/
def pagestart (lastosaddress : Nat) : Nat :=
  (lastosaddress + MEMORY_PAGE_SIZE - 4) / MEMORY_PAGE_SIZE

theorem initPages (ps : List Nat) (m : Memory) :
    (∀ x, freeBit (ps.foldl initPage m) x = (decide (x ∈ ps) || freeBit m x)) ∧
      (ps.foldl initPage m).nfreepages = m.nfreepages + ps.length ∧
      (ps.foldl initPage m).freemapmax = m.freemapmax ∧
      (ps.foldl initPage m).mapnum = m.mapnum := by
  induction ps generalizing m with
  | nil => simp
  | cons p ps ih =>
    obtain ⟨h1, h2, h3, h4⟩ := ih (initPage m p)
    refine ⟨fun x => ?_, ?_, h3.trans rfl, h4.trans rfl⟩
    · have hbit : freeBit (initPage m p) x = (decide (x = p) || freeBit m x) :=
        freeBit_setFreemap p x
      rw [List.foldl_cons, h1, hbit, ← Bool.or_assoc]
      simp only [List.mem_cons, Bool.decide_or, Bool.or_comm]
    · rw [List.foldl_cons, h2, List.length_cons]
      change m.nfreepages + 1 + ps.length = _
      omega

/-- At first the pages past the kernel are free. -/
theorem MemoryModuleInit.spec (memsize lastosaddress : Nat) (hm : ∀ i, m.freepages i = 0#32) :
    let m' := MemoryModuleInit memsize lastosaddress m
    (∀ x, freeBit m' x = decide (pagestart lastosaddress ≤ x ∧ x < maxpage memsize)) ∧
      m'.nfreepages = maxpage memsize - pagestart lastosaddress ∧
      m'.freemapmax = (maxpage memsize + 31) / 32 ∧ m'.mapnum = m.mapnum := by
  intro m'
  obtain ⟨h1, h2, h3, h4⟩ := initPages
    (List.range' (pagestart lastosaddress) (maxpage memsize - pagestart lastosaddress))
    { m with
      pagestart := pagestart lastosaddress
      freemapmax := (maxpage memsize + 31) / 32
      freepages := fun i => if i < (maxpage memsize + 31) / 32 then 0#32 else m.freepages i
      nfreepages := 0 }
  refine ⟨fun x => (h1 x).trans ?_, h2.trans (by simp), h3, h4⟩
  have hzero : freeBit { m with
      pagestart := pagestart lastosaddress
      freemapmax := (maxpage memsize + 31) / 32
      freepages := fun i => if i < (maxpage memsize + 31) / 32 then 0#32 else m.freepages i
      nfreepages := 0 } x = false := by
    simp [freeBit, hm]
  rw [hzero, Bool.or_false, decide_eq_decide, List.mem_range'_1]
  omega

end dlxos
