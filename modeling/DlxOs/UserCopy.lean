-- The copies between the kernel and a process, page by page through the page
-- table. The range check lets one page past the last one through, so a copy
-- that reaches this page follows an entry that is not the process's own.
import DlxOs.Pages

namespace dlxos

open Function

/-- The bytes of the physical memory. -/
abbrev Ram := Word → BitVec 8

def bcopy (src dst : Word) : Nat → Ram → Ram
  | 0, ram => ram
  | count + 1, ram => bcopy (src + 1) (dst + 1) count (update ram dst (ram src))

/-- There is no result where the page table is read past its end. -/
def MemoryTranslateUserToSystem (pcb : PCB) (addr : Word) : Option Word :=
  let page := addr.toNat / MEMORY_PAGE_SIZE
  let offset := addr.toNat % MEMORY_PAGE_SIZE
  if page > pcb.npages then some 0
  else (pcb.pte page).map fun pte => (pte &&& MEMORY_PTE_MASK) + BitVec.ofNat 32 offset

/-- The variables of `moveBetweenSpaces`, and the memory. -/
structure Copy where
  s : Word
  u : Word
  n : Int
  bytesCopied : Int
  ram : Ram
  /-- The user side of each `bcopy`, as an address and a length. The routine
  does not read it. -/
  chunks : List (Word × Nat)

/-- The rest of one turn of the loop, once the user address is translated. -/
def Copy.turn (x : Copy) (dir : Int) (curUser : Word) : Copy :=
  let left := MEMORY_PAGE_SIZE - curUser.toNat % MEMORY_PAGE_SIZE
  let bytesToCopy := if (left : Int) > x.n then x.n.toNat else left
  { s := x.s + BitVec.ofNat 32 bytesToCopy
    u := x.u + BitVec.ofNat 32 bytesToCopy
    n := x.n - bytesToCopy
    bytesCopied := x.bytesCopied + bytesToCopy
    ram := if dir ≥ 0 then bcopy x.s curUser bytesToCopy x.ram
      else bcopy curUser x.s bytesToCopy x.ram
    chunks := x.chunks ++ [(curUser, bytesToCopy)] }

/-- The loop of `moveBetweenSpaces`. Each turn copies at least one byte. -/
def moveLoop (pcb : PCB) (dir : Int) : Nat → Copy → Except Halt Copy
  | 0, _ => .error .hang
  | fuel + 1, x =>
    if x.n > 0 then
      match MemoryTranslateUserToSystem pcb x.u with
      | none => .error .crash
      | some curUser => if curUser = 0 then .ok x else moveLoop pcb dir fuel (x.turn dir curUser)
    else .ok x

def moveBetweenSpaces (pcb : PCB) (s u : Word) (n dir : Int) (ram : Ram) : Except Halt Copy :=
  moveLoop pcb dir (n.toNat + 1) ⟨s, u, n, 0, ram, []⟩

def MemoryCopySystemToUser (pcb : PCB) (src dst : Word) (n : Int) (ram : Ram) :
    Except Halt Copy :=
  moveBetweenSpaces pcb src dst n 1 ram

def MemoryCopyUserToSystem (pcb : PCB) (src dst : Word) (n : Int) (ram : Ram) :
    Except Halt Copy :=
  moveBetweenSpaces pcb dst src n (-1) ram

/-! ## The map of a process -/

/-- The process has some pages, and its entries for them were set up. -/
structure PCB.Maps (b : PCB) : Prop where
  pos : 1 ≤ b.npages
  le : b.npages ≤ PAGETABLE_SIZE
  setup : ∀ i : Fin PAGETABLE_SIZE, i.val < b.npages →
    ∃ page, page ≠ 0 ∧ page < MEMORY_MAX_PAGES ∧ b.pagetable i = MemorySetupPte page

/-- The first user address past the pages of the process. -/
def PCB.top (b : PCB) : Nat := b.npages * MEMORY_PAGE_SIZE

/-- The physical address is in a page of the process. -/
def PCB.InPages (b : PCB) (addr : Nat) : Prop :=
  ∃ i : Fin PAGETABLE_SIZE, i.val < b.npages ∧
    addr / MEMORY_PAGE_SIZE = pteToPageNumber (b.pagetable i)

/-- The entry just past the last page is in the table, and with the offset of
the address it comes to 0. -/
def PCB.BlankAt (b : PCB) (addr : Nat) : Prop :=
  ∃ pte, b.pte b.npages = some pte ∧
    (pte &&& MEMORY_PTE_MASK) + BitVec.ofNat 32 (addr % MEMORY_PAGE_SIZE) = 0

variable {b : PCB} {dir : Int} {x y : Copy} {addr : Word}

theorem setupPte_masked (page : Nat) :
    MemorySetupPte page &&& MEMORY_PTE_MASK = BitVec.ofNat 32 (page * MEMORY_PAGE_SIZE) := by
  have hmask : ∀ i < 32, MEMORY_PTE_MASK.getLsbD i = decide (3 ≤ i) := by decide
  have hvalid : ∀ i < 32, MEMORY_PTE_VALID.getLsbD i = decide (i = 0) := by decide
  apply BitVec.eq_of_getLsbD_eq
  intro i hi
  rw [MemorySetupPte, BitVec.getLsbD_and, BitVec.getLsbD_or, hmask i hi, hvalid i hi]
  by_cases h3 : 3 ≤ i
  · have h0 : i ≠ 0 := by omega
    simp [h3, h0]
  · have hlow : (page * MEMORY_PAGE_SIZE).testBit i = false := by
      rw [MEMORY_PAGE_SIZE, show (65536 : Nat) = 2 ^ 16 from rfl, Nat.testBit_mul_two_pow]
      simp only [Bool.and_eq_false_imp, decide_eq_true_eq]
      omega
    simp [h3, BitVec.getLsbD_ofNat, hlow]

/-! ## The translation of one address -/

/-- An address of the process is in one of its pages, at the same offset. -/
theorem translate_mapped (h : b.Maps) (ha : addr.toNat < b.top) :
    ∃ (i : Fin PAGETABLE_SIZE) (w : Word),
      (i.val = addr.toNat / MEMORY_PAGE_SIZE ∧ i.val < b.npages) ∧
      MemoryTranslateUserToSystem b addr = some w ∧ w ≠ 0 ∧
      w.toNat = pteToPageNumber (b.pagetable i) * MEMORY_PAGE_SIZE +
        addr.toNat % MEMORY_PAGE_SIZE := by
  have hlt : addr.toNat / MEMORY_PAGE_SIZE < b.npages :=
    Nat.div_lt_of_lt_mul (by rw [Nat.mul_comm]; exact ha)
  have hindex := Nat.lt_of_lt_of_le hlt h.le
  obtain ⟨page, h0, hmax, hpte⟩ := h.setup ⟨_, hindex⟩ hlt
  have hpage : b.pte (addr.toNat / MEMORY_PAGE_SIZE) = some (MemorySetupPte page) := by
    rw [← hpte]
    exact b.pte_eq ⟨_, hindex⟩
  have hoff := Nat.mod_lt addr.toNat (show MEMORY_PAGE_SIZE > 0 by decide)
  have hword : page * MEMORY_PAGE_SIZE + addr.toNat % MEMORY_PAGE_SIZE < 2 ^ 32 := by
    simp only [MEMORY_PAGE_SIZE, MEMORY_MAX_PAGES] at hmax hoff ⊢
    omega
  obtain ⟨w, hw⟩ : ∃ w : Word,
      w = BitVec.ofNat 32 (page * MEMORY_PAGE_SIZE + addr.toNat % MEMORY_PAGE_SIZE) := ⟨_, rfl⟩
  have hnat : w.toNat = page * MEMORY_PAGE_SIZE + addr.toNat % MEMORY_PAGE_SIZE := by
    rw [hw, BitVec.toNat_ofNat, Nat.mod_eq_of_lt hword]
  refine ⟨⟨_, hindex⟩, w, ⟨rfl, hlt⟩, ?_, fun he => ?_, ?_⟩
  · unfold MemoryTranslateUserToSystem
    simp only
    rw [if_neg (Nat.not_lt.mpr (Nat.le_of_lt hlt)), hpage, Option.map_some, setupPte_masked,
      ← BitVec.ofNat_add, hw]
  · rw [he] at hnat
    simp only [MEMORY_PAGE_SIZE, BitVec.ofNat_eq_ofNat, BitVec.toNat_ofNat] at hnat
    omega
  · rw [hnat, hpte, pteToPageNumber_eq, setupPte_toNat hmax]

theorem translate_beyond (h : b.npages < addr.toNat / MEMORY_PAGE_SIZE) :
    MemoryTranslateUserToSystem b addr = some 0 := by
  simp [MemoryTranslateUserToSystem, h]

theorem translate_past (h : addr.toNat / MEMORY_PAGE_SIZE = b.npages) :
    MemoryTranslateUserToSystem b addr = some 0 ↔ b.BlankAt addr.toNat := by
  simp [MemoryTranslateUserToSystem, PCB.BlankAt, h, Option.map_eq_some_iff]

/-! ## The loop -/

/-- The loop has gone from `x` to `y` and has copied `k` bytes, all of them in
pages of the process. -/
structure Copied (b : PCB) (x y : Copy) (k : Nat) : Prop where
  u : y.u.toNat = x.u.toNat + k
  n : y.n = x.n - k
  bytes : y.bytesCopied = x.bytesCopied + k
  inside : ∀ c ∈ y.chunks, c ∈ x.chunks ∨ ∀ i < c.2, b.InPages (c.1.toNat + i)

theorem Copied.refl (b : PCB) (x : Copy) : Copied b x x 0 := by
  refine ⟨rfl, by simp, by simp, fun c hc => .inl hc⟩

theorem Copied.trans {z : Copy} {k l : Nat} (h : Copied b x y k) (h' : Copied b y z l) :
    Copied b x z (k + l) := by
  refine ⟨?_, ?_, ?_, fun c hc => ?_⟩
  · rw [h'.u, h.u, Nat.add_assoc]
  · rw [h'.n, h.n]
    omega
  · rw [h'.bytes, h.bytes]
    omega
  · rcases h'.inside c hc with hc | hc
    · exact h.inside c hc
    · exact .inr hc

/-- One turn copies up to the end of a page, or what is left. -/
theorem turn_mapped (h : b.Maps) (dir : Int) (hn : 0 < x.n) (ha : x.u.toNat < b.top) :
    ∃ w, MemoryTranslateUserToSystem b x.u = some w ∧ w ≠ 0 ∧
      Copied b x (x.turn dir w)
        (min x.n.toNat (MEMORY_PAGE_SIZE - x.u.toNat % MEMORY_PAGE_SIZE)) := by
  obtain ⟨i, w, ⟨_, hi⟩, hw, hne, hnat⟩ := translate_mapped h ha
  have hoff : w.toNat % MEMORY_PAGE_SIZE = x.u.toNat % MEMORY_PAGE_SIZE := by
    rw [hnat, Nat.mul_add_mod_self_right, Nat.mod_mod]
  have hpage := Nat.mod_lt x.u.toNat (show MEMORY_PAGE_SIZE > 0 by decide)
  have hbytes : (if ((MEMORY_PAGE_SIZE - w.toNat % MEMORY_PAGE_SIZE : Nat) : Int) > x.n
      then x.n.toNat else MEMORY_PAGE_SIZE - w.toNat % MEMORY_PAGE_SIZE) =
      min x.n.toNat (MEMORY_PAGE_SIZE - x.u.toNat % MEMORY_PAGE_SIZE) := by
    rw [hoff]
    split <;> omega
  have htop : b.top ≤ 2 ^ 20 := by
    have := h.le
    simp only [PCB.top, PAGETABLE_SIZE, MEMORY_PAGE_SIZE] at this ⊢
    omega
  refine ⟨w, hw, hne, ?_⟩
  unfold Copy.turn
  simp only
  rw [hbytes]
  refine ⟨?_, rfl, rfl, fun c hc => ?_⟩
  · simp only [MEMORY_PAGE_SIZE] at hpage ⊢
    rw [BitVec.toNat_add, BitVec.toNat_ofNat]
    omega
  · simp only [List.mem_append, List.mem_singleton] at hc
    rcases hc with hc | rfl
    · exact .inl hc
    · refine .inr fun j hj => ⟨i, hi, ?_⟩
      simp only at hj
      rw [hnat]
      simp only [MEMORY_PAGE_SIZE] at hpage hj ⊢
      omega

/-- The loop copies up to the top of the process's memory, or all. -/
theorem moveLoop_mapped (h : b.Maps) (dir : Int) (fuel : Nat) : ∀ x : Copy, x.n.toNat < fuel →
    ∃ y fuel', moveLoop b dir fuel x = moveLoop b dir fuel' y ∧ y.n.toNat < fuel' ∧
      Copied b x y (min x.n.toNat (b.top - x.u.toNat)) := by
  induction fuel with
  | zero => exact fun x hx => absurd hx (Nat.not_lt_zero _)
  | succ fuel ih =>
    intro x hx
    by_cases hgo : 0 < x.n ∧ x.u.toNat < b.top
    · obtain ⟨hn, ha⟩ := hgo
      obtain ⟨w, hw, hne, hturn⟩ := turn_mapped h dir hn ha
      have hpage := Nat.mod_lt x.u.toNat (show MEMORY_PAGE_SIZE > 0 by decide)
      have hn' := hturn.n
      obtain ⟨y, fuel', hrun, hfuel, hcopied⟩ := ih (x.turn dir w) (by omega)
      refine ⟨y, fuel', ?_, hfuel, ?_⟩
      · simp only [moveLoop, gt_iff_lt, hn, if_true, hw, hne, if_false]
        exact hrun
      · -- a turn stays below the top
        have hle : x.u.toNat + (MEMORY_PAGE_SIZE - x.u.toNat % MEMORY_PAGE_SIZE) ≤ b.top := by
          simp only [PCB.top, MEMORY_PAGE_SIZE] at ha ⊢
          omega
        have hk := hturn.trans hcopied
        rw [hturn.u, hn'] at hk
        have hsum : min x.n.toNat (MEMORY_PAGE_SIZE - x.u.toNat % MEMORY_PAGE_SIZE) +
            min (x.n -
              (min x.n.toNat (MEMORY_PAGE_SIZE - x.u.toNat % MEMORY_PAGE_SIZE) : Nat)).toNat
              (b.top - (x.u.toNat +
                min x.n.toNat (MEMORY_PAGE_SIZE - x.u.toNat % MEMORY_PAGE_SIZE))) =
            min x.n.toNat (b.top - x.u.toNat) := by
          omega
        rwa [hsum] at hk
    · have hzero : min x.n.toNat (b.top - x.u.toNat) = 0 := by omega
      rw [hzero]
      exact ⟨x, fuel + 1, rfl, hx, .refl b x⟩

theorem moveLoop_stop {fuel : Nat} (hf : x.n.toNat < fuel) (hn : ¬ 0 < x.n) :
    moveLoop b dir fuel x = .ok x := by
  obtain ⟨fuel, rfl⟩ := Nat.exists_eq_add_of_lt hf
  simp [moveLoop, hn]

theorem moveLoop_grows {fuel : Nat} (h : moveLoop b dir fuel x = .ok y) :
    x.bytesCopied ≤ y.bytesCopied := by
  induction fuel generalizing x with
  | zero => cases h
  | succ fuel ih =>
    simp only [moveLoop] at h
    split at h
    · split at h
      · cases h
      · split at h
        · exact Int.le_of_eq (congrArg Copy.bytesCopied (Except.ok.inj h))
        · have := ih h
          simp only [Copy.turn] at this
          omega
    · exact Int.le_of_eq (congrArg Copy.bytesCopied (Except.ok.inj h))

theorem turn_grows (dir : Int) (hn : 0 < x.n) (w : Word) :
    x.bytesCopied < (x.turn dir w).bytesCopied := by
  have hpage := Nat.mod_lt w.toNat (show MEMORY_PAGE_SIZE > 0 by decide)
  simp only [Copy.turn]
  split <;> omega

theorem bcopy_frame {a : Word} (count : Nat) : ∀ {src dst : Word} {ram : Ram},
    (∀ i < count, a ≠ dst + BitVec.ofNat 32 i) → bcopy src dst count ram a = ram a := by
  induction count with
  | zero => exact fun _ => rfl
  | succ count ih =>
    intro src dst ram h
    rw [bcopy, ih fun i hi => ?_, update_of_ne]
    · simpa using h 0 (by omega)
    · have := h (i + 1) (by omega)
      rwa [Nat.add_comm, BitVec.ofNat_add, ← BitVec.add_assoc] at this

/-- A copy to a process writes the chunks, and no other byte. -/
theorem moveLoop_frame {a : Word} (hd : dir ≥ 0) {fuel : Nat} :
    ∀ {x : Copy}, moveLoop b dir fuel x = .ok y →
      (∀ c ∈ y.chunks, ∀ i < c.2, a ≠ c.1 + BitVec.ofNat 32 i) →
        y.ram a = x.ram a ∧ ∀ c ∈ x.chunks, c ∈ y.chunks := by
  induction fuel with
  | zero => exact fun h => by cases h
  | succ fuel ih =>
    intro x h hno
    simp only [moveLoop] at h
    split at h
    · split at h
      · cases h
      · split at h
        · obtain rfl := Except.ok.inj h
          exact ⟨rfl, fun c hc => hc⟩
        · obtain ⟨hram, hchunks⟩ := ih h hno
          refine ⟨?_, fun c hc => hchunks c (by simp [Copy.turn, hc])⟩
          rw [hram]
          simp only [Copy.turn, if_pos hd]
          exact bcopy_frame _
            (hno _ (hchunks _ (List.mem_append_right _ (List.mem_singleton_self _))))
    · obtain rfl := Except.ok.inj h
      exact ⟨rfl, fun c hc => hc⟩

theorem PCB.InPages.lt {a : Nat} (h : b.InPages a) : a < 2 ^ 32 := by
  obtain ⟨i, _, ha⟩ := h
  have hpage : pteToPageNumber (b.pagetable i) < MEMORY_MAX_PAGES := by
    rw [pteToPageNumber_eq]
    exact word_page_lt _
  rw [← ha] at hpage
  simp only [MEMORY_PAGE_SIZE, MEMORY_MAX_PAGES] at hpage
  omega

/-- A copy to a process whose chunks are in its pages leaves the other pages
alone. -/
theorem moveLoop_outside {a : Word} {fuel : Nat} (h : moveLoop b dir fuel x = .ok y)
    (hin : ∀ c ∈ y.chunks, ∀ i < c.2, b.InPages (c.1.toNat + i)) (hd : dir ≥ 0)
    (ha : ¬ b.InPages a.toNat) : y.ram a = x.ram a := by
  refine (moveLoop_frame hd h fun c hc i hi he => ha ?_).1
  have hpages := hin c hc i hi
  have hlt := hpages.lt
  have hnat : a.toNat = c.1.toNat + i := by
    rw [he, BitVec.toNat_add, BitVec.toNat_ofNat]
    omega
  rw [hnat]
  exact hpages

/-! ## Isolation -/

/-- The translation reads the table inside its bounds, and gives an address
only for a page of the process. -/
def TranslateOk (b : PCB) (addr : Word) : Prop :=
  ∃ w, MemoryTranslateUserToSystem b addr = some w ∧
    (w ≠ 0 → addr.toNat / MEMORY_PAGE_SIZE < b.npages)

/-- The copy ends, it copies the bytes before the first unmapped address, and
on the side of the process it stays inside its pages. A copy to the process
changes no other byte of the memory. -/
def CopyOk (b : PCB) (u : Word) (n dir : Int) (ram : Ram) (r : Except Halt Copy) : Prop :=
  ∃ y, r = .ok y ∧ y.bytesCopied = min n.toNat (b.top - u.toNat) ∧
    (∀ c ∈ y.chunks, ∀ i < c.2, b.InPages (c.1.toNat + i)) ∧
    (dir ≥ 0 → ∀ a, ¬ b.InPages a.toNat → y.ram a = ram a)

/-- The copy does not reach the page just past the last one, or the entry
there comes to 0. -/
def PCB.CopySafe (b : PCB) (u : Word) (n : Int) : Prop :=
  n ≤ 0 ∨ b.npages < u.toNat / MEMORY_PAGE_SIZE ∨ u.toNat + n ≤ b.top ∨
    b.BlankAt (max u.toNat b.top)

theorem translateOk_iff (h : b.Maps) :
    TranslateOk b addr ↔ addr.toNat / MEMORY_PAGE_SIZE ≠ b.npages ∨ b.BlankAt addr.toNat := by
  rcases Nat.lt_trichotomy (addr.toNat / MEMORY_PAGE_SIZE) b.npages with hlt | heq | hgt
  · have ha : addr.toNat < b.top := (Nat.div_lt_iff_lt_mul (by decide)).mp hlt
    obtain ⟨i, w, _, hw, _⟩ := translate_mapped h ha
    exact ⟨fun _ => .inl (Nat.ne_of_lt hlt), fun _ => ⟨w, hw, fun _ => hlt⟩⟩
  · rw [← translate_past heq]
    constructor
    · rintro ⟨w, hw, hlt⟩
      by_cases hz : w = 0
      · exact .inr (hz ▸ hw)
      · exact absurd (hlt hz) (by omega)
    · rintro (hne | hz)
      · exact absurd heq hne
      · exact ⟨0, hz, fun hne => absurd rfl hne⟩
  · exact ⟨fun _ => .inl (Nat.ne_of_gt hgt),
      fun _ => ⟨0, translate_beyond hgt, fun hne => absurd rfl hne⟩⟩

theorem copyOk_iff (h : b.Maps) (s u : Word) (n dir : Int) (ram : Ram) :
    CopyOk b u n dir ram (moveBetweenSpaces b s u n dir ram) ↔ b.CopySafe u n := by
  obtain ⟨y, fuel, hrun, hfuel, hcopied⟩ := moveLoop_mapped h dir (n.toNat + 1)
    ⟨s, u, n, 0, ram, []⟩ (Nat.lt_succ_self _)
  have hu : y.u.toNat = u.toNat + min n.toNat (b.top - u.toNat) := hcopied.u
  have hn : y.n = n - (min n.toNat (b.top - u.toNat) : Nat) := hcopied.n
  have hbytes : y.bytesCopied = min n.toNat (b.top - u.toNat) := by
    have := hcopied.bytes
    simp only at this
    omega
  have hin : ∀ c ∈ y.chunks, ∀ i < c.2, b.InPages (c.1.toNat + i) := fun c hc =>
    (hcopied.inside c hc).resolve_left (by simp)
  -- a loop that stops here has done its work
  have hok : moveLoop b dir fuel y = .ok y → CopyOk b u n dir ram (.ok y) := fun hy =>
    ⟨y, rfl, hbytes, hin, fun hd a ha => moveLoop_outside (hrun.trans hy) hin hd ha⟩
  rw [moveBetweenSpaces, hrun]
  by_cases hpos : 0 < y.n
  swap
  · -- every byte was copied
    have hstop : moveLoop b dir fuel y = .ok y := moveLoop_stop hfuel hpos
    rw [hstop]
    refine ⟨fun _ => ?_, fun _ => hok hstop⟩
    by_cases h0 : n ≤ 0
    · exact .inl h0
    · exact .inr (.inr (.inl (by omega)))
  -- the loop stands at the first unmapped address
  have hmax : y.u.toNat = max u.toNat b.top := by omega
  obtain ⟨fuel, rfl⟩ := Nat.exists_eq_add_of_lt hfuel
  simp only [moveLoop, gt_iff_lt, hpos, if_true] at hok ⊢
  by_cases hfar : b.npages < u.toNat / MEMORY_PAGE_SIZE
  · have hpage : b.npages < y.u.toNat / MEMORY_PAGE_SIZE :=
      Nat.lt_of_lt_of_le hfar (Nat.div_le_div_right (by omega))
    simp only [translate_beyond hpage, if_true] at hok ⊢
    exact ⟨fun _ => .inr (.inl hfar), fun _ => hok trivial⟩
  have hpage : y.u.toNat / MEMORY_PAGE_SIZE = b.npages := by
    rw [hmax]
    simp only [PCB.top, MEMORY_PAGE_SIZE] at hfar ⊢
    omega
  have hblank := translate_past hpage
  rw [hmax] at hblank
  have hsafe : b.CopySafe u n ↔ b.BlankAt (max u.toNat b.top) := by
    refine ⟨fun hs => ?_, fun hb => .inr (.inr (.inr hb))⟩
    rcases hs with h1 | h1 | h1 | h1
    · omega
    · exact absurd h1 hfar
    · omega
    · exact h1
  rw [hsafe, ← hblank]
  rcases htr : MemoryTranslateUserToSystem b y.u with _ | w
  · refine ⟨fun hcopy => ?_, fun hz => by cases hz⟩
    obtain ⟨_, hr, _⟩ := hcopy
    cases hr
  · by_cases hz : w = 0
    · subst hz
      simp only [htr, if_true, iff_true] at hok ⊢
      exact hok trivial
    · -- at least one byte too many
      simp only [hz, if_false]
      refine ⟨fun hcopy => ?_, fun hw => absurd (Option.some.inj hw) hz⟩
      obtain ⟨z, hr, hcount, _⟩ := hcopy
      have h1 := moveLoop_grows hr
      have h2 := turn_grows dir hpos w
      omega

theorem user_copy_isolation_iff (h : b.Maps) (s u : Word) (n : Int) (ram : Ram) :
    (TranslateOk b u ↔ u.toNat / MEMORY_PAGE_SIZE ≠ b.npages ∨ b.BlankAt u.toNat) ∧
    (CopyOk b u n 1 ram (MemoryCopySystemToUser b s u n ram) ↔ b.CopySafe u n) ∧
    (CopyOk b u n (-1) ram (MemoryCopyUserToSystem b u s n ram) ↔ b.CopySafe u n) :=
  ⟨translateOk_iff h, copyOk_iff h s u n 1 ram, copyOk_iff h s u n (-1) ram⟩

/-- A process of one page, whose next entry names a page of somebody else. -/
def stalePcb : PCB where
  sysStackArea := 0x90000#32
  flags := PROCESS_STATUS_RUNNABLE
  pagetable i := if i = 0 then MemorySetupPte 5 else if i = 1 then MemorySetupPte 7 else 0
  npages := 1
  result := 0

theorem stalePcb_maps : stalePcb.Maps := by
  refine ⟨by decide, by decide, fun i hi => ⟨5, by decide, by decide, ?_⟩⟩
  obtain rfl : i = 0 := Fin.ext (Nat.lt_one_iff.mp hi)
  rfl

theorem stalePcb_not_blank : ¬ stalePcb.BlankAt 65536 := by
  rintro ⟨pte, hpte, hz⟩
  obtain rfl : MemorySetupPte 7 = pte := Option.some.inj hpte
  revert hz
  decide

theorem stale_entry_is_followed : ¬ ∀ (b : PCB) (s u : Word) (n : Int) (ram : Ram), b.Maps → 0 ≤ n →
    TranslateOk b u ∧ CopyOk b u n 1 ram (MemoryCopySystemToUser b s u n ram) ∧
      CopyOk b u n (-1) ram (MemoryCopyUserToSystem b u s n ram) := by
  intro hall
  obtain ⟨_, _, hcopy⟩ := hall stalePcb 0x100#32 0xffff#32 2 (fun _ => 0) stalePcb_maps (by decide)
  rcases (copyOk_iff stalePcb_maps _ _ _ _ _).mp hcopy with h | h | h | h
  · exact absurd h (by decide)
  · exact absurd h (by decide)
  · exact absurd h (by decide)
  · exact stalePcb_not_blank h

theorem user_copy_isolation_of_a_process :
    ¬ TranslateOk stalePcb 0x10000#32 ∧
      CopyOk stalePcb 0xff00#32 256 (-1) (fun _ => 0)
        (MemoryCopyUserToSystem stalePcb 0xff00#32 0x100#32 256 fun _ => 0) := by
  obtain ⟨h1, _, _⟩ :=
    user_copy_isolation_iff stalePcb_maps 0x100#32 0x10000#32 1 (fun _ => 0)
  obtain ⟨_, _, h2⟩ :=
    user_copy_isolation_iff stalePcb_maps 0x100#32 0xff00#32 256 (fun _ => 0)
  refine ⟨fun h => ?_, h2.mpr (.inr (.inr (.inl (by decide))))⟩
  rcases h1.mp h with h | h
  · exact absurd h (by decide)
  · exact stalePcb_not_blank h

end dlxos
