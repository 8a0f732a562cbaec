-- Whole loads. The loader takes every byte of a file that it can read to its
-- address. It cannot read the upper-case digits from `B` to `F` in the data, and
-- ends where the first of them stands.
import DlxOs.LoadCalls
import Mathlib.Data.List.TakeWhile

namespace dlxos

variable {F : Type} {max k : Nat} {addr : Word} {lines ls ws : List Line} {l : Line}
  {data more : List DataByte}

/-! ## The loop of `ProcessFork` -/

/-- The loop that calls `ProcessGetFromFile` until it returns 0: what each call
delivers, and where it goes. A call finds the head of `stack` in its buffer. -/
def loadLoop (io : FileIo F) (max : Nat) : (fuel : Nat) → (Nat → Vector Byte 204) → Word → F →
    Option (List (Word × List Byte))
  | 0, _, _, _ => none
  | fuel + 1, stack, addr, f => do
    let (n, bytes, addr, f) ← ProcessGetFromFile io (stack 0).toList max addr max f
    if n ≤ 0 then return []
    let more ← loadLoop io max fuel (fun i => stack (i + 1)) addr f
    return (addr - BitVec.ofInt 32 n, bytes) :: more

/-- What the calls deliver of a file whose first `k` bytes can be read. -/
def deliveries (k : Nat) (addr : Word) : List Line → List (Word × List Byte)
  | [] => []
  | l :: ls =>
    let data := lineData (l :: following l ls)
    if k = 0 then []
    else if k < data.length then [(l.start addr, (data.take k).map DataByte.value)]
    else (l.start addr, data.map DataByte.value) ::
      deliveries (k - data.length) (l.start addr + BitVec.ofNat 32 data.length)
        (ls.drop (following l ls).length)
termination_by lines => lines.length
decreasing_by
  rw [List.length_drop, List.length_cons]
  omega

/-! ## Refused bytes -/

theorem accepted_length (data : List DataByte) :
    (accepted data).length = data.findIdx DataByte.refused := by
  induction data with
  | nil => rfl
  | cons b data ih =>
    rw [List.findIdx_cons]
    cases hb : b.refused with
    | true =>
      rw [accepted_neg hb]
      rfl
    | false =>
      rw [accepted_pos hb, List.length_cons, ih]
      rfl

theorem accepted_take (data : List DataByte) :
    accepted data = data.take (data.findIdx DataByte.refused) := by
  have hpre : accepted data <+: data := List.takeWhile_prefix _
  rw [← accepted_length]
  exact List.prefix_iff_eq_take.mp hpre

theorem remaining_eq_nil_iff :
    remaining data = [] ↔ data.findIdx DataByte.refused = data.length := by
  have hsplit : accepted data ++ remaining data = data := List.takeWhile_append_dropWhile
  have hlen := congrArg List.length hsplit
  rw [List.length_append, accepted_length] at hlen
  constructor
  · intro h
    rw [h, List.length_nil] at hlen
    omega
  · intro h
    exact List.eq_nil_of_length_eq_zero (by omega)

theorem lineData_append (ls ms : List Line) : lineData (ls ++ ms) = lineData ls ++ lineData ms :=
  List.flatMap_append

/-- A file, from the lines of its first call. -/
theorem call_split (l : Line) (ls : List Line) :
    l :: ls = (l :: following l ls) ++ ls.drop (following l ls).length := by
  rw [List.cons_append, List.cons_inj_right]
  exact (List.prefix_iff_eq_append.mp (following_starts l ls)).symm

theorem firstRefused_call (l : Line) (ls : List Line) : firstRefused (l :: ls) =
    if (lineData (l :: following l ls)).findIdx DataByte.refused <
        (lineData (l :: following l ls)).length then
      (lineData (l :: following l ls)).findIdx DataByte.refused
    else firstRefused (ls.drop (following l ls).length) +
      (lineData (l :: following l ls)).length := by
  unfold firstRefused
  conv_lhs => rw [call_split l ls, lineData_append, List.findIdx_append]

theorem lineData_pos (l : Line) (ls : List Line) : 0 < (lineData (l :: ls)).length := by
  rw [lineData_cons, List.length_append]
  have := List.length_pos_of_ne_nil l.nonempty
  omega

/-! ## The run -/

theorem delivered_at (a : Word) (n : Nat) :
    a + BitVec.ofNat 32 n - BitVec.ofInt 32 (n : Int) = a := by
  rw [BitVec.ofInt_natCast, BitVec.add_sub_cancel]

/-- Enough calls deliver what the file says, and the last of them returns 0. -/
theorem loadLoop_deliveries (hmax : 100 ≤ max) (fuel : Nat) :
    ∀ {lines : List Line} {stack : Nat → Vector Byte 204} {addr : Word} {f : File},
      f.rest = fileText lines → lines.length < fuel →
      loadLoop byteString max fuel stack addr f =
        some (deliveries (firstRefused lines) addr lines) := by
  induction fuel with
  | zero => exact fun _ h => absurd h (Nat.not_lt_zero _)
  | succ fuel ih =>
    intro lines stack addr f hrest hfuel
    rw [loadLoop]
    cases lines with
    | nil =>
      rw [getFromFile_end (stack 0) addr hrest, deliveries]
      rfl
    | cons l ls =>
      rw [List.length_cons] at hfuel
      obtain ⟨addr', f', hcall, hmore⟩ := getFromFile_line hmax (stack 0) addr hrest
      have hk := firstRefused_call l ls
      have hpos := lineData_pos l (following l ls)
      obtain ⟨data, hdata⟩ : ∃ data, data = lineData (l :: following l ls) := ⟨_, rfl⟩
      have hlen := accepted_length data
      rw [← hdata] at hcall hmore hk hpos
      rw [hcall, deliveries, ← hdata]
      simp only [Option.bind_eq_bind, Option.bind_some]
      by_cases hnone : accepted data = []
      · -- the first byte is refused
        have hzero : firstRefused (l :: ls) = 0 := by
          rw [hnone, List.length_nil] at hlen
          rw [hk, if_pos (by omega)]
          exact hlen.symm
        rw [hzero, if_pos rfl, hnone]
        rfl
      obtain ⟨haddr, hall, hin⟩ := hmore hnone
      have hcount : 0 < (accepted data).length := List.length_pos_of_ne_nil hnone
      rw [if_neg (by omega), haddr, delivered_at]
      by_cases hr : remaining data = []
      · have hend := remaining_eq_nil_iff.mp hr
        rw [if_neg (by omega)] at hk
        rw [hk, if_neg (by omega), if_neg (by omega), Nat.add_sub_cancel, accepted_all hr,
          ih (hall hr) (by rw [List.length_drop]; omega)]
        rfl
      · have hstop : data.findIdx DataByte.refused < data.length := by
          have hle := @List.findIdx_le_length _ DataByte.refused data
          have hne := mt remaining_eq_nil_iff.mpr hr
          omega
        rw [if_pos hstop] at hk
        obtain ⟨fuel, rfl⟩ := Nat.exists_eq_succ_of_ne_zero (show fuel ≠ 0 by omega)
        obtain ⟨addr2, f2, hlast⟩ := getFromFile_inside hmax (stack 1)
          (l.start addr + BitVec.ofNat 32 (accepted data).length) (hin hr)
        rw [hk, if_neg (by omega), if_pos hstop, loadLoop, hlast, accepted_take]
        rfl

/-! ## What is delivered -/

/-- What the calls put into memory. -/
def placed (chunks : List (Word × List Byte)) : List (Word × Byte) :=
  chunks.flatMap fun c => placedAt c.1 c.2

theorem placedAt_append (xs ys : List Byte) : ∀ (a : Word),
    placedAt a (xs ++ ys) = placedAt a xs ++ placedAt (a + BitVec.ofNat 32 xs.length) ys := by
  induction xs with
  | nil =>
    intro a
    rw [List.length_nil, BitVec.add_zero]
    rfl
  | cons v xs ih =>
    intro a
    rw [List.cons_append, placedAt, ih, placedAt, List.cons_append, List.length_cons, Nat.add_comm,
      BitVec.ofNat_add, BitVec.add_assoc]
    rfl

theorem placedAt_take (xs : List Byte) : ∀ (a : Word) (n : Nat),
    placedAt a (xs.take n) = (placedAt a xs).take n := by
  induction xs with
  | nil =>
    intro a n
    rw [List.take_nil, placedAt, List.take_nil]
  | cons v xs ih =>
    intro a n
    cases n with
    | zero => rfl
    | succ n => rw [List.take_succ_cons, placedAt, ih, placedAt, List.take_succ_cons]

theorem placedAt_length (xs : List Byte) : ∀ (a : Word), (placedAt a xs).length = xs.length := by
  induction xs with
  | nil => exact fun _ => rfl
  | cons v xs ih =>
    intro a
    rw [placedAt, List.length_cons, ih, List.length_cons]

theorem fileBytes_length (lines : List Line) : ∀ (addr : Word),
    (fileBytes addr lines).length = (lineData lines).length := by
  induction lines with
  | nil => exact fun _ => rfl
  | cons l ls ih =>
    intro addr
    rw [fileBytes, List.length_append, placedAt_length, List.length_map, ih, lineData_cons,
      List.length_append]

/-- Lines without an address go on. -/
theorem fileBytes_continued (hws : ∀ w ∈ ws, w.address = []) : ∀ (addr : Word),
    fileBytes addr (ws ++ ls) = placedAt addr ((lineData ws).map DataByte.value) ++
      fileBytes (addr + BitVec.ofNat 32 (lineData ws).length) ls := by
  induction ws with
  | nil =>
    intro addr
    rw [show lineData [] = [] from rfl, List.length_nil, BitVec.add_zero]
    rfl
  | cons w ws ih =>
    intro addr
    have hstart : w.start addr = addr := if_pos (hws w List.mem_cons_self)
    rw [List.cons_append, fileBytes, hstart, ih fun x hx => hws x (List.mem_cons_of_mem w hx),
      lineData_cons, List.map_append, placedAt_append, List.length_map, List.length_append,
      BitVec.ofNat_add, BitVec.add_assoc, List.append_assoc]

theorem following_continues (l : Line) (ls : List Line) : ∀ w ∈ following l ls, w.address = [] := by
  intro w hw
  simpa using List.mem_takeWhile_imp hw

theorem fileBytes_call (l : Line) (ls : List Line) (addr : Word) : fileBytes addr (l :: ls) =
    placedAt (l.start addr) ((lineData (l :: following l ls)).map DataByte.value) ++
      fileBytes (l.start addr + BitVec.ofNat 32 (lineData (l :: following l ls)).length)
        (ls.drop (following l ls).length) := by
  have hsplit := (List.prefix_iff_eq_append.mp (following_starts l ls)).symm
  rw [fileBytes]
  conv_lhs => rw [hsplit]
  rw [fileBytes_continued (following_continues l ls), lineData_cons, List.map_append,
    placedAt_append, List.length_map, List.length_append, BitVec.ofNat_add, BitVec.add_assoc,
    List.append_assoc]

/-- A file, call by call. -/
@[elab_as_elim]
theorem calls_induction {P : List Line → Prop} (nil : P [])
    (call : ∀ l ls, P (ls.drop (following l ls).length) → P (l :: ls)) (lines : List Line) :
    P lines := by
  induction hn : lines.length using Nat.strong_induction_on generalizing lines with
  | _ n ih =>
    cases lines with
    | nil => exact nil
    | cons l ls =>
      rw [List.length_cons] at hn
      refine call l ls (ih _ ?_ _ rfl)
      rw [List.length_drop]
      omega

/-- The deliveries are the first `k` bytes of the file, at their addresses. -/
theorem deliveries_placed (k : Nat) (addr : Word) (lines : List Line) :
    placed (deliveries k addr lines) = (fileBytes addr lines).take k := by
  induction lines using calls_induction generalizing k addr with
  | nil =>
    rw [deliveries, fileBytes, List.take_nil]
    rfl
  | call l ls ih =>
    rw [deliveries, fileBytes_call]
    obtain ⟨data, hdata⟩ : ∃ data, data = lineData (l :: following l ls) := ⟨_, rfl⟩
    rw [← hdata]
    have hwidth : (placedAt (l.start addr) (data.map DataByte.value)).length = data.length := by
      rw [placedAt_length, List.length_map]
    by_cases h0 : k = 0
    · rw [if_pos h0, h0, List.take_zero]
      rfl
    rw [if_neg h0]
    by_cases hk : k < data.length
    · rw [if_pos hk, List.take_append_of_le_length (by omega), placed, List.flatMap_cons,
        List.flatMap_nil, List.append_nil, List.map_take, placedAt_take]
    · rw [if_neg hk, List.take_append, hwidth, List.take_of_length_le (by omega), placed,
        List.flatMap_cons, ← ih, placed]

theorem following_short (l : Line) (ls : List Line) :
    (lineData (l :: following l ls)).length ≤ 100 := by
  have hcount := two_le_fileText (l :: following l ls)
  have hl := l.text_le
  have hwhole := whole_length (200 - l.text.length) ls
  obtain ⟨behind, hbehind⟩ := continued_starts (whole (200 - l.text.length) ls)
  rw [← hbehind, fileText_append, List.length_append] at hwhole
  rw [fileText_cons, List.length_append] at hcount
  unfold following at hcount ⊢
  omega

/-- No call delivers more than 100 bytes. -/
theorem deliveries_short (k : Nat) (addr : Word) (lines : List Line) :
    ∀ c ∈ deliveries k addr lines, c.2.length ≤ 100 := by
  induction lines using calls_induction generalizing k addr with
  | nil =>
    rw [deliveries]
    exact fun c hc => absurd hc List.not_mem_nil
  | call l ls ih =>
    intro c hc
    have hshort := following_short l ls
    rw [deliveries] at hc
    split_ifs at hc with h0 hk
    · exact absurd hc List.not_mem_nil
    · rw [List.mem_singleton] at hc
      rw [hc, List.length_map, List.length_take]
      omega
    · rcases List.mem_cons.mp hc with rfl | hc
      · rw [List.length_map]
        exact hshort
      · exact ih _ _ c hc

/-! ## The round trip -/

/-- The digits of the data are decimal, or in lower case. -/
def Line.Lower (l : Line) : Prop := ∀ b ∈ l.data, b.high.upper = false ∧ b.low.upper = false

theorem Line.Lower.accepted (h : l.Lower) : ∀ b ∈ l.data, b.refused = false := by
  intro b hb
  obtain ⟨h1, h2⟩ := h b hb
  unfold DataByte.refused Digit.refused
  rw [h1, h2]
  rfl

theorem firstRefused_lower (h : ∀ l ∈ lines, l.Lower) :
    firstRefused lines = (lineData lines).length := by
  unfold firstRefused
  rw [List.findIdx_eq_length]
  intro b hb
  obtain ⟨l, hl, hb⟩ := List.mem_flatMap.mp hb
  exact (h l hl).accepted b hb

theorem placed_firstRefused (lines : List Line) (addr : Word) :
    placed (deliveries (firstRefused lines) addr lines) =
      (fileBytes addr lines).take (firstRefused lines) :=
  deliveries_placed _ addr lines

/-- The loader delivers every byte of a file in lower case to its address, once and
in order. The first line may stand behind a header. -/
theorem load_round_trip (header : List Byte) {lines : List Line} (h : ∀ l ∈ lines, l.Lower)
    (stack : Nat → Vector Byte 204) :
    ∃ chunks, (∀ fuel, lines.length < fuel → loadLoop byteString 100 fuel stack 0
        ⟨header ++ fileText lines, header.length⟩ = some chunks) ∧
      placed chunks = fileBytes 0 lines ∧ ∀ c ∈ chunks, c.2.length ≤ 100 := by
  have hrest : File.rest ⟨header ++ fileText lines, header.length⟩ = fileText lines :=
    List.drop_left
  refine ⟨deliveries (firstRefused lines) 0 lines,
    fun fuel hfuel => loadLoop_deliveries (Nat.le_refl _) fuel hrest hfuel, ?_,
    deliveries_short _ 0 lines⟩
  rw [placed_firstRefused, firstRefused_lower h, ← fileBytes_length lines 0, List.take_length]

/-- Two bytes at address 0, and one behind them. -/
def smallFile : List Line :=
  [⟨[⟨0, false⟩], [], [⟨⟨1, false⟩, ⟨11, false⟩, [.space]⟩, ⟨⟨15, false⟩, ⟨0, false⟩, []⟩],
      by decide, by decide⟩,
    ⟨[], [.tab], [⟨⟨10, false⟩, ⟨2, false⟩, []⟩], by decide, by decide⟩]

theorem smallFile_lower : ∀ l ∈ smallFile, l.Lower := by
  unfold smallFile Line.Lower
  decide

theorem smallFile_arrives : ∃ chunks, (∀ fuel, smallFile.length < fuel →
    loadLoop byteString 100 fuel (fun _ => Vector.replicate 204 0) 0
      ⟨[] ++ fileText smallFile, ([] : List Byte).length⟩ = some chunks) ∧
    placed chunks = fileBytes 0 smallFile ∧ ∀ c ∈ chunks, c.2.length ≤ 100 :=
  load_round_trip [] smallFile_lower _

/-! ## The case of the digits -/

theorem DataByte.lower_text (b : DataByte) : b.lower.text.length = b.text.length := rfl

theorem dataText_lower (data : List DataByte) :
    (dataText (data.map DataByte.lower)).length = (dataText data).length := by
  induction data with
  | nil => rfl
  | cons b data ih =>
    rw [List.map_cons, dataText_cons, dataText_cons, List.length_append, List.length_append, ih,
      DataByte.lower_text]

theorem lineText_lower (address : List Digit) (lead : List Blank) (data : List DataByte) :
    (lineText (address.map Digit.lower) lead (data.map DataByte.lower)).length =
      (lineText address lead data).length := by
  unfold lineText
  simp only [List.length_append, List.length_map, List.length_cons, dataText_lower]

/-- The line, with all its digits in lower case. -/
def Line.lower (l : Line) : Line where
  address := l.address.map Digit.lower
  lead := l.lead
  data := l.data.map DataByte.lower
  nonempty := by simpa using l.nonempty
  short := (lineText_lower _ _ _).trans_lt l.short

/-- The files differ at most in the case of their digits. -/
def SameButCase (f g : List Line) : Prop := f.map Line.lower = g.map Line.lower

theorem Line.lower_text (l : Line) : l.lower.text.length = l.text.length := by
  unfold Line.text
  rw [List.length_append, List.length_append]
  exact congrArg (· + 1) (lineText_lower _ _ _)

theorem Line.lower_address (l : Line) : l.lower.address = [] ↔ l.address = [] := List.map_eq_nil_iff

theorem Line.lower_start (l : Line) (addr : Word) : l.lower.start addr = l.start addr := by
  have hvalue : addressValue (l.address.map Digit.lower) = addressValue l.address := by
    unfold addressValue
    rw [List.foldl_map]
    rfl
  unfold Line.start
  by_cases h : l.address = []
  · rw [if_pos h, if_pos (l.lower_address.mpr h)]
  · rw [if_neg h, if_neg (mt l.lower_address.mp h)]
    exact hvalue

theorem lineData_lower (ls : List Line) :
    lineData (ls.map Line.lower) = (lineData ls).map DataByte.lower := by
  induction ls with
  | nil => rfl
  | cons l ls ih =>
    rw [List.map_cons, lineData_cons, ih, lineData_cons, List.map_append]
    rfl

theorem values_lower (data : List DataByte) :
    (data.map DataByte.lower).map DataByte.value = data.map DataByte.value := by
  rw [List.map_map]
  rfl

theorem whole_lower (room : Nat) (ls : List Line) :
    whole room (ls.map Line.lower) = (whole room ls).map Line.lower := by
  induction ls generalizing room with
  | nil => rfl
  | cons l ls ih =>
    rw [List.map_cons, whole, whole, Line.lower_text]
    by_cases h : l.text.length ≤ room
    · rw [if_pos h, if_pos h, ih, List.map_cons]
    · rw [if_neg h, if_neg h, List.map_nil]

theorem following_lower (l : Line) (ls : List Line) :
    following l.lower (ls.map Line.lower) = (following l ls).map Line.lower := by
  unfold following continued
  rw [Line.lower_text, whole_lower, List.takeWhile_map]
  congr 2
  funext w
  simp [Line.lower_address]

/-- The deliveries do not depend on the case, but for what can be read. -/
theorem deliveries_lower (k : Nat) (addr : Word) (lines : List Line) :
    deliveries k addr (lines.map Line.lower) = deliveries k addr lines := by
  induction lines using calls_induction generalizing k addr with
  | nil => rw [List.map_nil]
  | call l ls ih =>
    have hdata : lineData (l.lower :: (following l ls).map Line.lower) =
        (lineData (l :: following l ls)).map DataByte.lower :=
      lineData_lower (l :: following l ls)
    rw [List.map_cons, deliveries, deliveries, following_lower, hdata, Line.lower_start]
    simp only [List.length_map, ← List.map_take, ← List.map_drop, values_lower, ih]

theorem firstRefused_le (lines : List Line) : firstRefused lines ≤ (lineData lines).length :=
  List.findIdx_le_length

/-- The same bytes can be read of both files just where their deliveries agree. -/
theorem deliveries_eq_iff {f g : List Line} (h : SameButCase f g) (addr : Word) :
    deliveries (firstRefused f) addr f = deliveries (firstRefused g) addr g ↔
      firstRefused f = firstRefused g := by
  constructor
  · intro heq
    have hlen := congrArg (fun c => (placed c).length) heq
    simp only [placed_firstRefused, List.length_take, fileBytes_length] at hlen
    have hf := firstRefused_le f
    have hg := firstRefused_le g
    omega
  · intro hk
    rw [hk, ← deliveries_lower, h, deliveries_lower]

/-- Two files that differ in the case of their digits are loaded alike just when the
first byte that is written with an upper-case `B`, `C`, `D`, `E` or `F` is the same
one in both, or there is none in both. -/
theorem hex_case_iff {f g : List Line} (h : SameButCase f g) (hmax : 100 ≤ max)
    (stack stack' : Nat → Vector Byte 204) (addr : Word) :
    ∃ cs ds, (∀ fuel, f.length < fuel →
        loadLoop byteString max fuel stack addr ⟨fileText f, 0⟩ = some cs) ∧
      (∀ fuel, g.length < fuel →
        loadLoop byteString max fuel stack' addr ⟨fileText g, 0⟩ = some ds) ∧
      (cs = ds ↔ firstRefused f = firstRefused g) :=
  ⟨_, _, fun fuel hfuel => loadLoop_deliveries hmax fuel rfl hfuel,
    fun fuel hfuel => loadLoop_deliveries hmax fuel rfl hfuel, deliveries_eq_iff h addr⟩

/-- The file `0:0a0b`, where the last digit of each byte is in lower or in upper case. -/
def caseFile (first second : Bool) : List Line :=
  [⟨[⟨0, false⟩], [], [⟨⟨0, false⟩, ⟨10, first⟩, []⟩, ⟨⟨0, false⟩, ⟨11, second⟩, []⟩], by simp,
    by cases first <;> cases second <;> decide⟩]

/-- Of `0:0a0B` only the byte `0a` is loaded. -/
theorem upper_case_ends_the_load : ¬ ∀ (f g : List Line) (stack : Nat → Vector Byte 204)
    (cs ds : List (Word × List Byte)), SameButCase f g →
    loadLoop byteString 100 3 stack 0 ⟨fileText f, 0⟩ = some cs →
    loadLoop byteString 100 3 stack 0 ⟨fileText g, 0⟩ = some ds → cs = ds := by
  intro hall
  have hsame : SameButCase (caseFile false false) (caseFile false true) := by
    unfold SameButCase
    decide
  have hf := @loadLoop_deliveries _ (Nat.le_refl 100) 3 (caseFile false false)
    (fun _ => Vector.replicate 204 0) 0 ⟨fileText (caseFile false false), 0⟩ rfl (by decide)
  have hg := @loadLoop_deliveries _ (Nat.le_refl 100) 3 (caseFile false true)
    (fun _ => Vector.replicate 204 0) 0 ⟨fileText (caseFile false true), 0⟩ rfl (by decide)
  have heq := (deliveries_eq_iff hsame 0).mp (hall _ _ _ _ _ hsame hf hg)
  exact absurd heq (by decide)

/-- An upper-case `A` is loaded like the other. -/
theorem both_cases_load_alike : ∃ cs, (∀ fuel, 1 < fuel →
      loadLoop byteString 100 fuel (fun _ => Vector.replicate 204 0) 0
        ⟨fileText (caseFile false false), 0⟩ = some cs) ∧
    (∀ fuel, 1 < fuel →
      loadLoop byteString 100 fuel (fun _ => Vector.replicate 204 1) 0
        ⟨fileText (caseFile true false), 0⟩ = some cs) := by
  have hsame : SameButCase (caseFile false false) (caseFile true false) := by
    unfold SameButCase
    decide
  obtain ⟨cs, ds, hcs, hds, hiff⟩ := hex_case_iff hsame (Nat.le_refl 100)
    (fun _ => Vector.replicate 204 0) (fun _ => Vector.replicate 204 1) 0
  obtain rfl := hiff.mpr (by decide)
  exact ⟨cs, hcs, hds⟩

end dlxos
