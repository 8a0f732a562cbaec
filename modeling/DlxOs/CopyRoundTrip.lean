-- A copy to a process and back. The loop goes chunk by chunk over the pages,
-- and does what a copy byte by byte through the page table does.
import DlxOs.UserCopy

namespace dlxos

open Function

variable {b : PCB} {dir : Int} {x y : Copy} {addr u : Word} {ram ram' ram'' : Ram}

/-! ## Bytes moved from one list of places to another -/

/-- The first `k` bytes at the places of `src` have been moved to those of `dst`,
and no other byte has changed. -/
structure Moved (src dst : Nat → Word) (k : Nat) (ram ram' : Ram) : Prop where
  moved : ∀ i < k, ram' (dst i) = ram (src i)
  frame : ∀ a, (∀ i < k, a ≠ dst i) → ram' a = ram a

theorem Moved.zero (src dst : Nat → Word) (ram : Ram) : Moved src dst 0 ram ram :=
  ⟨fun _ hi => absurd hi (Nat.not_lt_zero _), fun _ _ => rfl⟩

/-- Two moves make one, where the places are distinct and none is both read and
written. -/
theorem Moved.append {src dst : Nat → Word} {k l : Nat} (h : Moved src dst k ram ram')
    (h' : Moved (fun i => src (k + i)) (fun i => dst (k + i)) l ram' ram'')
    (hinj : ∀ i < k + l, ∀ j < k + l, dst i = dst j → i = j)
    (hdisj : ∀ i < k + l, ∀ j < k + l, src i ≠ dst j) : Moved src dst (k + l) ram ram'' := by
  constructor
  · intro i hi
    by_cases hik : i < k
    · rw [h'.frame _ fun j hj he => ?_, h.moved i hik]
      have := hinj i hi (k + j) (by omega) he
      omega
    · obtain ⟨j, rfl⟩ := Nat.exists_eq_add_of_le (Nat.le_of_not_lt hik)
      rw [h'.moved j (by omega), h.frame _ fun m hm => hdisj _ hi m (by omega)]
  · intro a ha
    rw [h'.frame a fun i hi => ha (k + i) (by omega), h.frame a fun i hi => ha i (by omega)]

theorem Moved.congr {src dst src' dst' : Nat → Word} {k : Nat} (h : Moved src dst k ram ram')
    (hsrc : ∀ i < k, src' i = src i) (hdst : ∀ i < k, dst' i = dst i) :
    Moved src' dst' k ram ram' := by
  constructor
  · intro i hi
    rw [hdst i hi, hsrc i hi, h.moved i hi]
  · intro a ha
    refine h.frame a fun i hi => ?_
    rw [← hdst i hi]
    exact ha i hi

/-- The places of the bytes of a buffer. -/
def place (a : Word) (i : Nat) : Word := a + BitVec.ofNat 32 i

theorem place_add (a : Word) (i j : Nat) : place (place a i) j = place a (i + j) := by
  unfold place
  rw [BitVec.add_assoc, ← BitVec.ofNat_add]

theorem place_inj {a : Word} {i j : Nat} (hi : i < 2 ^ 32) (hj : j < 2 ^ 32)
    (h : place a i = place a j) : i = j := by
  unfold place at h
  have hnat := congrArg BitVec.toNat ((BitVec.add_right_inj a).mp h)
  rwa [BitVec.toNat_ofNat, BitVec.toNat_ofNat, Nat.mod_eq_of_lt hi, Nat.mod_eq_of_lt hj] at hnat

theorem bcopy.spec (count : Nat) : ∀ {src dst : Word} {ram : Ram}, count < 2 ^ 32 →
    (∀ i < count, ∀ j < count, place src i ≠ place dst j) →
      Moved (place src) (place dst) count ram (bcopy src dst count ram) := by
  induction count with
  | zero => exact fun _ _ => .zero _ _ _
  | succ count ih =>
    intro src dst ram hlt hdisj
    have hone : Moved (place src) (place dst) 1 ram (update ram dst (ram src)) := by
      refine ⟨fun i hi => ?_, fun a ha => ?_⟩
      · obtain rfl : i = 0 := by omega
        simp [place]
      · rw [update_of_ne]
        simpa [place] using ha 0 (by omega)
    have hrest := @ih (src + 1) (dst + 1) (update ram dst (ram src)) (by omega)
      fun i hi j hj => by
        have := hdisj (1 + i) (by omega) (1 + j) (by omega)
        rwa [← place_add, ← place_add] at this
    rw [bcopy, Nat.add_comm count 1]
    refine hone.append (hrest.congr (fun i _ => (place_add src 1 i).symm)
      fun i _ => (place_add dst 1 i).symm) ?_ ?_
    · exact fun i hi j hj => place_inj (by omega) (by omega)
    · exact fun i hi j hj => hdisj i (by omega) j (by omega)

/-! ## The places of the bytes of a process -/

/-- The pages of the process are set up, and are different pages. -/
structure PCB.DistinctPages (b : PCB) (page : Fin PAGETABLE_SIZE → Nat) : Prop where
  le : b.npages ≤ PAGETABLE_SIZE
  setup : ∀ i, i.val < b.npages →
    page i ≠ 0 ∧ page i < MEMORY_MAX_PAGES ∧ b.pagetable i = MemorySetupPte (page i)
  distinct : ∀ i j, i.val < b.npages → j.val < b.npages → page i = page j → i = j

variable {page : Fin PAGETABLE_SIZE → Nat}

/-- A process with an address has a page. -/
theorem PCB.DistinctPages.maps (h : b.DistinctPages page) {a : Nat} (ha : a < b.top) : b.Maps := by
  refine ⟨?_, h.le, fun i hi => ⟨page i, h.setup i hi⟩⟩
  by_contra h0
  have hz : b.npages = 0 := by omega
  simp [PCB.top, hz] at ha

/-- Where the translation of one user address leads. -/
def PCB.physical (b : PCB) (addr : Word) : Word := (MemoryTranslateUserToSystem b addr).getD 0

theorem physical_mapped (h : b.Maps) (ha : addr.toNat < b.top) :
    MemoryTranslateUserToSystem b addr = some (b.physical addr) ∧ b.physical addr ≠ 0 ∧
      ∃ i : Fin PAGETABLE_SIZE, i.val = addr.toNat / MEMORY_PAGE_SIZE ∧ i.val < b.npages ∧
        (b.physical addr).toNat = pteToPageNumber (b.pagetable i) * MEMORY_PAGE_SIZE +
          addr.toNat % MEMORY_PAGE_SIZE := by
  obtain ⟨i, w, ⟨hi, hlt⟩, hw, hne, hnat⟩ := translate_mapped h ha
  have hphys : b.physical addr = w := by
    unfold PCB.physical
    rw [hw, Option.getD_some]
  rw [hphys]
  exact ⟨hw, hne, i, hi, hlt, hnat⟩

theorem physical_inPages (h : b.Maps) (ha : addr.toNat < b.top) :
    b.InPages (b.physical addr).toNat := by
  obtain ⟨-, -, i, hi, hlt, hnat⟩ := physical_mapped h ha
  refine ⟨i, hlt, ?_⟩
  rw [hnat]
  simp only [MEMORY_PAGE_SIZE]
  omega

theorem PCB.Maps.top_le (h : b.Maps) : b.top ≤ 2 ^ 20 := by
  have := h.le
  simp only [PCB.top, PAGETABLE_SIZE, MEMORY_PAGE_SIZE] at this ⊢
  omega

theorem place_toNat {i : Nat} (h : addr.toNat + i < 2 ^ 32) :
    (place addr i).toNat = addr.toNat + i := by
  unfold place
  rw [BitVec.toNat_add, BitVec.toNat_ofNat]
  omega

/-- Inside a page, the next user byte is the next physical byte. -/
theorem physical_place (h : b.Maps) {i : Nat}
    (hi : addr.toNat % MEMORY_PAGE_SIZE + i < MEMORY_PAGE_SIZE) (ha : addr.toNat + i < b.top) :
    b.physical (place addr i) = place (b.physical addr) i := by
  have htop := h.top_le
  have hplace : (place addr i).toNat = addr.toNat + i := place_toNat (by omega)
  obtain ⟨-, -, j, hj, -, hnat⟩ := physical_mapped h (show addr.toNat < b.top by omega)
  obtain ⟨-, -, j', hj', -, hnat'⟩ := physical_mapped h (hplace ▸ ha)
  have hsame : j' = j := by
    apply Fin.ext
    rw [hj, hj', hplace]
    simp only [MEMORY_PAGE_SIZE] at hi ⊢
    omega
  have hpage : pteToPageNumber (b.pagetable j) < MEMORY_MAX_PAGES := by
    rw [pteToPageNumber_eq]
    exact word_page_lt _
  subst hsame
  apply BitVec.eq_of_toNat_eq
  simp only [MEMORY_PAGE_SIZE, MEMORY_MAX_PAGES] at hi hpage hnat hnat'
  rw [place_toNat (by omega), hnat, hnat', hplace]
  omega

/-- Different user bytes have different places. -/
theorem physical_inj (h : b.DistinctPages page) {addr' : Word} (ha : addr.toNat < b.top)
    (ha' : addr'.toNat < b.top) (he : b.physical addr = b.physical addr') : addr = addr' := by
  obtain ⟨-, -, j, hj, hlt, hnat⟩ := physical_mapped (h.maps ha) ha
  obtain ⟨-, -, j', hj', hlt', hnat'⟩ := physical_mapped (h.maps ha) ha'
  obtain ⟨-, hmax, hpte⟩ := h.setup j hlt
  obtain ⟨-, hmax', hpte'⟩ := h.setup j' hlt'
  rw [hpte, pteToPageNumber_eq, setupPte_toNat hmax] at hnat
  rw [hpte', pteToPageNumber_eq, setupPte_toNat hmax', ← he, hnat] at hnat'
  simp only [MEMORY_PAGE_SIZE] at hj hj' hnat'
  have hsame : j = j' := h.distinct j j' hlt hlt' (by omega)
  subst hsame
  apply BitVec.eq_of_toNat_eq
  omega

/-! ## The loop -/

/-- The places that a copy reads, and those that it writes. -/
def Copy.reads (b : PCB) (dir : Int) (x : Copy) (i : Nat) : Word :=
  if dir ≥ 0 then place x.s i else b.physical (place x.u i)

def Copy.writes (b : PCB) (dir : Int) (x : Copy) (i : Nat) : Word :=
  if dir ≥ 0 then b.physical (place x.u i) else place x.s i

/-- The bytes that are left to copy: they are mapped, and the system buffer is
outside the pages of the process. -/
structure Copy.Ready (b : PCB) (x : Copy) (k : Nat) : Prop where
  n : x.n = k
  mapped : k ≠ 0 → x.u.toNat + k ≤ b.top
  outside : ∀ i < k, ¬ b.InPages (place x.s i).toNat

/-- One turn does what a copy byte by byte does. -/
theorem turn_moves (h : b.DistinctPages page) {k : Nat} (hx : x.Ready b k) (hk : k ≠ 0) :
    ∃ l w, 0 < l ∧ l ≤ k ∧ MemoryTranslateUserToSystem b x.u = some w ∧ w ≠ 0 ∧
      (x.turn dir w).s = place x.s l ∧ (x.turn dir w).u = place x.u l ∧
      (x.turn dir w).n = (k - l : Nat) ∧ (x.turn dir w).bytesCopied = x.bytesCopied + l ∧
      Moved (x.reads b dir) (x.writes b dir) l x.ram (x.turn dir w).ram := by
  have hend := hx.mapped hk
  have hmaps := h.maps (show x.u.toNat < b.top by omega)
  have htop := hmaps.top_le
  obtain ⟨hw, hne, i, -, -, hnat⟩ := @physical_mapped _ x.u hmaps (by omega)
  have hpage := Nat.mod_lt x.u.toNat (show MEMORY_PAGE_SIZE > 0 by decide)
  have hoff : (b.physical x.u).toNat % MEMORY_PAGE_SIZE = x.u.toNat % MEMORY_PAGE_SIZE := by
    rw [hnat, Nat.mul_add_mod_self_right, Nat.mod_mod]
  obtain ⟨l, hl⟩ : ∃ l, l = min k (MEMORY_PAGE_SIZE - x.u.toNat % MEMORY_PAGE_SIZE) := ⟨_, rfl⟩
  have hbytes : (if ((MEMORY_PAGE_SIZE - (b.physical x.u).toNat % MEMORY_PAGE_SIZE : Nat) : Int) >
      x.n then x.n.toNat
      else MEMORY_PAGE_SIZE - (b.physical x.u).toNat % MEMORY_PAGE_SIZE) = l := by
    rw [hoff, hx.n, hl]
    split <;> omega
  have hsame : ∀ i < l, b.physical (place x.u i) = place (b.physical x.u) i := fun i hi =>
    physical_place hmaps (by omega) (by omega)
  have hdisj : ∀ i < l, ∀ j < l, place x.s i ≠ place (b.physical x.u) j := by
    intro i hi j hj he
    refine hx.outside i (by omega) ?_
    rw [he, ← hsame j hj]
    refine physical_inPages hmaps ?_
    rw [place_toNat (by omega)]
    omega
  refine ⟨l, b.physical x.u, by omega, by omega, hw, hne, ?_⟩
  unfold Copy.turn
  simp only
  rw [hbytes]
  refine ⟨rfl, rfl, by rw [hx.n]; omega, rfl, ?_⟩
  by_cases hd : dir ≥ 0
  · rw [if_pos hd]
    refine (bcopy.spec l (by omega) hdisj).congr (fun i _ => ?_) fun i hi => ?_
    · exact if_pos hd
    · exact (if_pos hd).trans (hsame i hi)
  · rw [if_neg hd]
    refine (bcopy.spec l (by omega) fun i hi j hj => (hdisj j hj i hi).symm).congr
      (fun i hi => ?_) fun i _ => ?_
    · exact (if_neg hd).trans (hsame i hi)
    · exact if_neg hd

/-- The places of a buffer that is ready are different, and none of them is in a
page of the process. -/
theorem Copy.Ready.places (h : b.DistinctPages page) {k : Nat} (hx : x.Ready b k) :
    (∀ i < k, ∀ j < k, x.writes b dir i = x.writes b dir j → i = j) ∧
      ∀ i < k, ∀ j < k, x.reads b dir i ≠ x.writes b dir j := by
  by_cases hk : k = 0
  · subst hk
    exact ⟨fun i hi => absurd hi (Nat.not_lt_zero _), fun i hi => absurd hi (Nat.not_lt_zero _)⟩
  have hend := hx.mapped hk
  have hmaps := h.maps (show x.u.toNat < b.top by omega)
  have htop := hmaps.top_le
  have hlt : ∀ i < k, (place x.u i).toNat < b.top := by
    intro i hi
    rw [place_toNat (by omega)]
    omega
  have hdisj : ∀ i < k, ∀ j < k, place x.s i ≠ b.physical (place x.u j) := by
    intro i hi j hj he
    refine hx.outside i hi ?_
    rw [he]
    exact physical_inPages hmaps (hlt j hj)
  unfold Copy.writes Copy.reads
  by_cases hd : dir ≥ 0
  · simp only [if_pos hd]
    refine ⟨fun i hi j hj he => ?_, hdisj⟩
    exact place_inj (by omega) (by omega) (physical_inj h (hlt i hi) (hlt j hj) he)
  · simp only [if_neg hd]
    exact ⟨fun i hi j hj he => place_inj (by omega) (by omega) he,
      fun i hi j hj => (hdisj j hj i hi).symm⟩

theorem moveLoop_moves (h : b.DistinctPages page) (fuel : Nat) : ∀ {x : Copy} {k : Nat}, k < fuel →
    x.Ready b k → ∃ y, moveLoop b dir fuel x = .ok y ∧ y.bytesCopied = x.bytesCopied + k ∧
      Moved (x.reads b dir) (x.writes b dir) k x.ram y.ram := by
  induction fuel with
  | zero => exact fun hk => absurd hk (Nat.not_lt_zero _)
  | succ fuel ih =>
    intro x k hk hx
    by_cases h0 : k = 0
    · subst h0
      refine ⟨x, ?_, by simp, .zero _ _ _⟩
      simp [moveLoop, hx.n]
    obtain ⟨l, w, hl, hle, hw, hne, hs, hu, hn, hcount, hmoved⟩ :=
      @turn_moves _ dir _ _ h _ hx h0
    have hend := hx.mapped h0
    have hready : (x.turn dir w).Ready b (k - l) := by
      refine ⟨hn, fun hrest => ?_, fun i hi => ?_⟩
      · have htop := (h.maps (show x.u.toNat < b.top by omega)).top_le
        rw [hu, place_toNat (by omega)]
        omega
      · rw [hs, place_add]
        exact hx.outside (l + i) (by omega)
    obtain ⟨y, hy, hbytes, hrest⟩ := ih (by omega) hready
    have hgo : moveLoop b dir (fuel + 1) x = .ok y := by
      have hpos : x.n > 0 := by
        rw [hx.n]
        omega
      simp only [moveLoop, hpos, if_true, hw, hne, if_false]
      exact hy
    refine ⟨y, hgo, by omega, ?_⟩
    have hreads : ∀ i, x.reads b dir (l + i) = (x.turn dir w).reads b dir i := by
      intro i
      unfold Copy.reads
      rw [hs, hu, place_add, place_add]
    have hwrites : ∀ i, x.writes b dir (l + i) = (x.turn dir w).writes b dir i := by
      intro i
      unfold Copy.writes
      rw [hs, hu, place_add, place_add]
    have hboth := @Copy.Ready.places _ dir _ _ h _ hx
    obtain ⟨m, rfl⟩ := Nat.exists_eq_add_of_le hle
    rw [Nat.add_sub_cancel_left] at hrest
    exact hmoved.append (hrest.congr (fun i _ => hreads i) fun i _ => hwrites i) hboth.1 hboth.2

/-! ## There and back -/

/-- The user bytes from `u` on are all in pages of the process. -/
def PCB.Range (b : PCB) (u : Word) (n : Nat) : Prop :=
  ∀ i < n, (u.toNat + i) / MEMORY_PAGE_SIZE < b.npages

/-- The system buffer is outside the pages of the process. -/
def PCB.Outside (b : PCB) (s : Word) (n : Nat) : Prop := ∀ i < n, ¬ b.InPages (place s i).toNat

theorem ready_of_range {s : Word} {n : Nat} (hu : b.Range u n) (hs : b.Outside s n) :
    (⟨s, u, n, 0, ram, []⟩ : Copy).Ready b n := by
  refine ⟨rfl, fun hn => ?_, hs⟩
  have hlast := hu (n - 1) (by omega)
  have htop := (Nat.div_lt_iff_lt_mul (show 0 < MEMORY_PAGE_SIZE by decide)).mp hlast
  simp only [PCB.top]
  omega

/-- A buffer copied to a process and back comes out as it was. On the way each
byte is where the translation of its own address leads. -/
theorem copy_round_trip (h : b.DistinctPages page) {src dst : Word} {n : Nat} (hu : b.Range u n)
    (hfrom : b.Outside src n) (hto : b.Outside dst n) (ram : Ram) :
    ∃ x y, MemoryCopySystemToUser b src u n ram = .ok x ∧ x.bytesCopied = n ∧
      MemoryCopyUserToSystem b u dst n x.ram = .ok y ∧ y.bytesCopied = n ∧
      (∀ i < n, y.ram (place dst i) = ram (place src i)) ∧
      (∀ i < n, ∃ w, MemoryTranslateUserToSystem b (place u i) = some w ∧ w ≠ 0 ∧
        x.ram w = ram (place src i) ∧ y.ram w = ram (place src i)) ∧
      (∀ a, (∀ i < n, MemoryTranslateUserToSystem b (place u i) ≠ some a) → x.ram a = ram a) ∧
      ∀ a, (∀ i < n, a ≠ place dst i) → y.ram a = x.ram a := by
  obtain ⟨x, hx, hcount, hmoved⟩ := @moveLoop_moves _ 1 _ h (n + 1) _ _ (Nat.lt_succ_self n)
    (@ready_of_range _ _ ram _ _ hu hfrom)
  obtain ⟨y, hy, hcount', hmoved'⟩ := @moveLoop_moves _ (-1) _ h (n + 1) _ _ (Nat.lt_succ_self n)
    (@ready_of_range _ _ x.ram _ _ hu hto)
  have htrans : ∀ i < n, MemoryTranslateUserToSystem b (place u i) =
      some (b.physical (place u i)) ∧ b.physical (place u i) ≠ 0 ∧
        b.InPages (b.physical (place u i)).toNat := by
    intro i hi
    have hend := (@ready_of_range _ _ ram _ _ hu hfrom).mapped (by omega)
    simp only at hend
    have hmaps := h.maps (show u.toNat < b.top by omega)
    have htop := hmaps.top_le
    have hlt : (place u i).toNat < b.top := by
      rw [place_toNat (by omega)]
      omega
    obtain ⟨hw, hne, -⟩ := physical_mapped hmaps hlt
    exact ⟨hw, hne, physical_inPages hmaps hlt⟩
  refine ⟨x, y, hx, by simpa using hcount, hy, by simpa using hcount', ?_, ?_, ?_, ?_⟩
  · intro i hi
    exact (hmoved'.moved i hi).trans (hmoved.moved i hi)
  · intro i hi
    obtain ⟨hw, hne, hin⟩ := htrans i hi
    refine ⟨_, hw, hne, hmoved.moved i hi, ?_⟩
    refine (hmoved'.frame _ fun j hj he => ?_).trans (hmoved.moved i hi)
    have hplace : b.physical (place u i) = place dst j := he
    exact hto j hj (hplace ▸ hin)
  · intro a ha
    refine hmoved.frame a fun i hi he => ha i hi ?_
    rw [(htrans i hi).1]
    exact congrArg some he.symm
  · exact fun a ha => hmoved'.frame a ha

/-- A process of two pages, which are not neighbours. -/
def twoPages : PCB where
  sysStackArea := 0x90000#32
  flags := PROCESS_STATUS_RUNNABLE
  pagetable i := if i = 0 then MemorySetupPte 7 else if i = 1 then MemorySetupPte 5 else 0
  npages := 2
  result := 0

theorem twoPages_distinct : twoPages.DistinctPages fun i => if i = 0 then 7 else 5 := by
  have hcases : ∀ i : Fin PAGETABLE_SIZE, i.val < 2 → i = 0 ∨ i = 1 := by decide
  refine ⟨by decide, fun i hi => ?_, fun i j hi hj he => ?_⟩
  · rcases hcases i hi with rfl | rfl <;> decide
  · rcases hcases i hi with rfl | rfl <;> rcases hcases j hj with rfl | rfl <;> revert he <;> decide

/-- A memory that holds the low byte of each address. -/
def lowBytes : Ram := fun a => a.setWidth 8

/-- Four bytes go over the border of the two pages and come back elsewhere. -/
theorem copy_round_trip_over_a_border : ∃ x y,
    MemoryCopySystemToUser twoPages 0x100#32 0xfffe#32 4 lowBytes = .ok x ∧
      MemoryCopyUserToSystem twoPages 0xfffe#32 0x200#32 4 x.ram = .ok y ∧
      y.ram 0x203#32 = 3 := by
  have hout : ∀ a : Word, a.toNat < MEMORY_PAGE_SIZE → ¬ twoPages.InPages a.toNat := by
    rintro a ha ⟨i, hi, hpage⟩
    obtain ⟨h0, hmax, hpte⟩ := twoPages_distinct.setup i hi
    rw [hpte, pteToPageNumber_eq, setupPte_toNat hmax, Nat.div_eq_of_lt ha] at hpage
    exact h0 hpage.symm
  obtain ⟨x, y, hx, -, hy, -, hbytes, -⟩ := @copy_round_trip _ 0xfffe#32 _ twoPages_distinct
    0x100#32 0x200#32 4
    (fun i hi => Nat.div_lt_of_lt_mul (show 65534 + i < 65536 * 2 by omega))
    (fun i hi => hout _ (by rw [place_toNat] <;> simp [MEMORY_PAGE_SIZE] <;> omega))
    (fun i hi => hout _ (by rw [place_toNat] <;> simp [MEMORY_PAGE_SIZE] <;> omega)) lowBytes
  exact ⟨x, y, hx, hy, hbytes 3 (by omega)⟩

end dlxos
