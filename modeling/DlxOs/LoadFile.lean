-- Load files. A line is an address, where it has one, a colon and the bytes of the
-- program, each with two hex digits in either case.
import DlxOs.LoaderBounds

namespace dlxos

/-! ## The text of a load file -/

/-- The base of the numbers in a load file. -/
def BASE : Nat := 16

instance : NeZero BASE := ⟨by decide⟩

/-- A hex digit. The case of a decimal digit does not show. -/
structure Digit where
  value : Fin BASE
  upper : Bool
deriving DecidableEq

def Digit.char (d : Digit) : Byte :=
  if d.value.val < 10 then BitVec.ofNat 8 (48 + d.value.val)
  else if d.upper then BitVec.ofNat 8 (55 + d.value.val)
  else BitVec.ofNat 8 (87 + d.value.val)

def Digit.lower (d : Digit) : Digit := ⟨d.value, false⟩

/-- A digit that `isxdigit` does not know: an upper-case `B` to `F`. -/
def Digit.refused (d : Digit) : Bool := d.upper && 10 < d.value.val

inductive Blank where
  | space
  | tab
deriving DecidableEq

def Blank.char : Blank → Byte
  | .space => chr ' '
  | .tab => chr '\t'

/-- A byte of the program, and the blanks behind it. -/
structure DataByte where
  high : Digit
  low : Digit
  blanks : List Blank
deriving DecidableEq

def DataByte.text (b : DataByte) : List Byte :=
  b.high.char :: b.low.char :: b.blanks.map Blank.char

def DataByte.value (b : DataByte) : Byte :=
  BitVec.ofNat 8 (16 * b.high.value.val + b.low.value.val)

def DataByte.lower (b : DataByte) : DataByte := ⟨b.high.lower, b.low.lower, b.blanks⟩

def DataByte.refused (b : DataByte) : Bool := b.high.refused || b.low.refused

def dataText (data : List DataByte) : List Byte := data.flatMap DataByte.text

/-- The text of a line in front of its newline. -/
def lineText (address : List Digit) (lead : List Blank) (data : List DataByte) : List Byte :=
  address.map Digit.char ++ chr ':' :: (lead.map Blank.char ++ dataText data)

/-- A line of a load file. Where it has no digits in front of the colon, it goes on
behind the line before. -/
structure Line where
  address : List Digit
  lead : List Blank
  data : List DataByte
  nonempty : data ≠ []
  short : (lineText address lead data).length < 200
deriving DecidableEq

def Line.text (l : Line) : List Byte := lineText l.address l.lead l.data ++ [chr '\n']

def fileText (lines : List Line) : List Byte := lines.flatMap Line.text

/-! ## What a load file says -/

def addressValue (address : List Digit) : Word :=
  address.foldl (fun v d => v * 16 + BitVec.ofNat 32 d.value.val) 0

/-- The address of the first byte of the line, where the lines before end at `addr`. -/
def Line.start (l : Line) (addr : Word) : Word :=
  if l.address = [] then addr else addressValue l.address

def placedAt : Word → List Byte → List (Word × Byte)
  | _, [] => []
  | addr, v :: vs => (addr, v) :: placedAt (addr + 1) vs

/-- The bytes of the file, at their addresses. -/
def fileBytes : Word → List Line → List (Word × Byte)
  | _, [] => []
  | addr, l :: ls => placedAt (l.start addr) (l.data.map DataByte.value) ++
      fileBytes (l.start addr + BitVec.ofNat 32 l.data.length) ls

/-- All bytes of the file, as they are written. -/
def lineData (lines : List Line) : List DataByte := lines.flatMap Line.data

/-- How many bytes stand before the first one with a refused digit. -/
def firstRefused (lines : List Line) : Nat := (lineData lines).findIdx DataByte.refused

/-- The bytes before the first one with a refused digit, and the others. -/
def accepted (data : List DataByte) : List DataByte := data.takeWhile (!·.refused)

def remaining (data : List DataByte) : List DataByte := data.dropWhile (!·.refused)

/-! ## Digits and blanks -/

theorem Digit.forall_iff {P : Digit → Prop} :
    (∀ d, P d) ↔ ∀ (v : Fin BASE) (u : Bool), P ⟨v, u⟩ :=
  ⟨fun h v u => h ⟨v, u⟩, fun h d => h d.value d.upper⟩

theorem Digit.curdigit_char : ∀ d : Digit, curdigit d.char = d.value.val :=
  Digit.forall_iff.mpr (by decide)

theorem Digit.getxvalue_char : ∀ d : Digit, getxvalue d.char = d.value.val :=
  Digit.forall_iff.mpr (by decide)

/-- The digits of the loader are those that it knows the value of, but for five. -/
theorem Digit.isxdigit_char : ∀ d : Digit, isxdigit d.char = !d.refused :=
  Digit.forall_iff.mpr (by decide)

/-- No digit is mistaken for another character. -/
theorem Digit.char_plain : ∀ d : Digit, d.char ≠ 0 ∧ d.char ≠ chr ':' ∧ d.char ≠ chr '\n' ∧
    d.char ≠ chr ' ' ∧ d.char ≠ chr '\t' ∧ d.char ≠ chr '-' :=
  Digit.forall_iff.mpr (by decide)

theorem Blank.char_plain (b : Blank) : b.char ≠ 0 ∧ b.char ≠ chr ':' ∧ b.char ≠ chr '\n' ∧
    ¬ curdigit b.char < 16 ∧ (b.char = chr ' ' ∨ b.char = chr '\t') := by
  cases b <;> decide

theorem DataByte.value_eq (b : DataByte) :
    BitVec.ofNat 8 (getxvalue b.high.char * 16 + getxvalue b.low.char) = b.value := by
  rw [Digit.getxvalue_char, Digit.getxvalue_char, Nat.mul_comm]
  rfl

/-- Neither a NUL, nor a colon, nor a newline stands in the text of the bytes. -/
theorem dataText_plain {data : List DataByte} {c : Byte} (h : c ∈ dataText data) :
    c ≠ 0 ∧ c ≠ chr ':' ∧ c ≠ chr '\n' := by
  obtain ⟨b, -, hc⟩ := List.mem_flatMap.mp h
  rcases List.mem_cons.mp hc with rfl | hc
  · obtain ⟨h1, h2, h3, -⟩ := b.high.char_plain
    exact ⟨h1, h2, h3⟩
  rcases List.mem_cons.mp hc with rfl | hc
  · obtain ⟨h1, h2, h3, -⟩ := b.low.char_plain
    exact ⟨h1, h2, h3⟩
  · obtain ⟨k, -, rfl⟩ := List.mem_map.mp hc
    obtain ⟨h1, h2, h3, -⟩ := k.char_plain
    exact ⟨h1, h2, h3⟩

theorem lineText_plain {address : List Digit} {lead : List Blank} {data : List DataByte} {c : Byte}
    (h : c ∈ lineText address lead data) : c ≠ 0 ∧ c ≠ chr '\n' := by
  unfold lineText at h
  rcases List.mem_append.mp h with h | h
  · obtain ⟨d, -, rfl⟩ := List.mem_map.mp h
    obtain ⟨h1, -, h2, -⟩ := d.char_plain
    exact ⟨h1, h2⟩
  rcases List.mem_cons.mp h with rfl | h
  · decide
  rcases List.mem_append.mp h with h | h
  · obtain ⟨k, -, rfl⟩ := List.mem_map.mp h
    obtain ⟨h1, -, h2, -⟩ := k.char_plain
    exact ⟨h1, h2⟩
  · obtain ⟨h1, -, h2⟩ := dataText_plain h
    exact ⟨h1, h2⟩

theorem Line.text_nul (l : Line) : 0 ∉ l.text := by
  intro h
  rcases List.mem_append.mp h with h | h
  · exact (lineText_plain h).1 rfl
  · rw [List.mem_singleton] at h
    exact absurd h (by decide)

theorem fileText_nul (lines : List Line) : 0 ∉ fileText lines := by
  intro h
  obtain ⟨l, -, hl⟩ := List.mem_flatMap.mp h
  exact l.text_nul hl

theorem fileText_cons (l : Line) (ls : List Line) :
    fileText (l :: ls) = l.text ++ fileText ls := rfl

theorem fileText_append (ls ms : List Line) : fileText (ls ++ ms) = fileText ls ++ fileText ms :=
  List.flatMap_append

theorem dataText_cons (b : DataByte) (data : List DataByte) :
    dataText (b :: data) = b.text ++ dataText data := rfl

theorem two_le_dataText (data : List DataByte) : 2 * data.length ≤ (dataText data).length := by
  induction data with
  | nil => exact Nat.zero_le _
  | cons b data ih =>
    rw [dataText_cons, List.length_append, List.length_cons]
    unfold DataByte.text
    rw [List.length_cons, List.length_cons]
    omega

theorem two_le_text (l : Line) : 2 * l.data.length + 2 ≤ l.text.length := by
  have := two_le_dataText l.data
  unfold Line.text lineText
  simp only [List.length_append, List.length_cons, List.length_nil]
  omega

theorem Line.text_le (l : Line) : l.text.length ≤ 200 := by
  have := l.short
  unfold Line.text
  rw [List.length_append, List.length_singleton]
  omega

/-! ## The bytes of one line -/

variable {room : Nat} {l rest junk out : List Byte} {addr : Word} {fuel : Nat}

theorem dataLoop_blanks (blanks : List Blank) :
    dataLoop room (blanks.map Blank.char ++ l) out addr = dataLoop room l out addr := by
  induction blanks with
  | nil => rfl
  | cons b blanks ih =>
    have hb := b.char_plain.2.2.2.2
    rw [List.map_cons, List.cons_append, dataLoop.eq_def]
    simp only [if_pos hb]
    exact ih

theorem dataLoop_newline : dataLoop room (chr '\n' :: l) out addr = some ⟨l, out, addr⟩ := by
  have hblank : ¬ (chr '\n' = chr ' ' ∨ chr '\n' = chr '\t') := by decide
  rw [dataLoop.eq_def]
  simp only [if_neg hblank, if_true]

theorem dataLoop_byte {b : DataByte} (hb : b.refused = false) (hout : out.length < room) :
    dataLoop room (b.text ++ l) out addr = dataLoop room l (out ++ [b.value]) (addr + 1) := by
  obtain ⟨hhigh, hlow⟩ := Bool.or_eq_false_iff.mp hb
  obtain ⟨-, -, hn, hs, ht, -⟩ := b.high.char_plain
  have hx : isxdigit b.high.char = true := by rw [Digit.isxdigit_char, hhigh]; rfl
  have hy : isxdigit b.low.char = true := by rw [Digit.isxdigit_char, hlow]; rfl
  have hblank : ¬ (b.high.char = chr ' ' ∨ b.high.char = chr '\t') := by simp [hs, ht]
  unfold DataByte.text
  rw [List.cons_append, List.cons_append, dataLoop.eq_def]
  simp only [if_neg hblank, if_neg hn, if_pos hx, if_pos hy, if_pos hout, DataByte.value_eq]
  exact dataLoop_blanks b.blanks

theorem dataLoop_refused {b : DataByte} (hb : b.refused = true) :
    dataLoop room (b.text ++ l) out addr = some ⟨b.text ++ l, out, addr⟩ := by
  obtain ⟨-, -, hn, hs, ht, -⟩ := b.high.char_plain
  have hblank : ¬ (b.high.char = chr ' ' ∨ b.high.char = chr '\t') := by simp [hs, ht]
  unfold DataByte.text
  rw [List.cons_append, List.cons_append, dataLoop.eq_def]
  simp only [if_neg hblank, if_neg hn]
  by_cases hx : isxdigit b.high.char = true
  · have hy : ¬ isxdigit b.low.char = true := by
      rw [Digit.isxdigit_char] at hx ⊢
      unfold DataByte.refused at hb
      revert hx hb
      cases b.high.refused <;> cases b.low.refused <;> decide
    rw [if_pos hx, if_neg hy]
  · rw [if_neg hx]

theorem accepted_pos {b : DataByte} {data : List DataByte} (hb : b.refused = false) :
    accepted (b :: data) = b :: accepted data := List.takeWhile_cons_of_pos (by simp [hb])

theorem accepted_neg {b : DataByte} {data : List DataByte} (hb : b.refused = true) :
    accepted (b :: data) = [] := List.takeWhile_cons_of_neg (by simp [hb])

theorem remaining_pos {b : DataByte} {data : List DataByte} (hb : b.refused = false) :
    remaining (b :: data) = remaining data := List.dropWhile_cons_of_pos (by simp [hb])

theorem remaining_neg {b : DataByte} {data : List DataByte} (hb : b.refused = true) :
    remaining (b :: data) = b :: data := List.dropWhile_cons_of_neg (by simp [hb])

theorem accepted_append {data more : List DataByte} (h : remaining data = []) :
    accepted (data ++ more) = data ++ accepted more ∧
      remaining (data ++ more) = remaining more := by
  induction data with
  | nil => exact ⟨rfl, rfl⟩
  | cons b data ih =>
    by_cases hb : b.refused = true
    · rw [remaining_neg hb] at h
      cases h
    · rw [Bool.not_eq_true] at hb
      rw [remaining_pos hb] at h
      obtain ⟨h1, h2⟩ := ih h
      rw [List.cons_append, accepted_pos hb, remaining_pos hb, h1, h2]
      exact ⟨rfl, rfl⟩

theorem accepted_stops {data : List DataByte} (more : List DataByte) (h : remaining data ≠ []) :
    accepted (data ++ more) = accepted data ∧ remaining (data ++ more) ≠ [] := by
  induction data with
  | nil => exact absurd rfl h
  | cons b data ih =>
    by_cases hb : b.refused = true
    · rw [List.cons_append, accepted_neg hb, accepted_neg hb, remaining_neg hb]
      exact ⟨rfl, List.cons_ne_nil _ _⟩
    · rw [Bool.not_eq_true] at hb
      rw [remaining_pos hb] at h
      obtain ⟨h1, h2⟩ := ih h
      rw [List.cons_append, accepted_pos hb, accepted_pos hb, remaining_pos hb, h1]
      exact ⟨rfl, h2⟩

theorem accepted_all {data : List DataByte} (h : remaining data = []) : accepted data = data := by
  have := (@accepted_append _ [] h).1
  rwa [List.append_nil, accepted, accepted, List.takeWhile_nil, List.append_nil] at this

/-- The loop goes past the bytes up to the first refused one, or past the line. -/
theorem dataLoop_data : ∀ {data : List DataByte} {out : List Byte} {addr : Word},
    out.length + data.length ≤ room →
    dataLoop room (dataText data ++ chr '\n' :: l) out addr =
      some ⟨if remaining data = [] then l
          else dataText (remaining data) ++ chr '\n' :: l,
        out ++ (accepted data).map DataByte.value,
        addr + BitVec.ofNat 32 (accepted data).length⟩ := by
  intro data
  induction data with
  | nil =>
    intro out addr _
    rw [dataText, List.flatMap_nil, List.nil_append, dataLoop_newline]
    simp [remaining, accepted]
  | cons b data ih =>
    intro out addr hroom
    rw [List.length_cons] at hroom
    by_cases hb : b.refused = true
    · rw [dataText_cons, List.append_assoc, dataLoop_refused hb, remaining_neg hb, accepted_neg hb,
        if_neg (List.cons_ne_nil b data), dataText_cons]
      simp
    · rw [Bool.not_eq_true] at hb
      rw [dataText_cons, List.append_assoc, dataLoop_byte hb (by omega),
        ih (by rw [List.length_append, List.length_singleton]; omega),
        remaining_pos hb, accepted_pos hb]
      congr 2
      · simp
      · rw [List.length_cons, BitVec.add_assoc, Nat.add_comm, BitVec.ofNat_add]
        rfl

/-! ## The address of one line -/

theorem digitLoop_digits {base : Nat} {e : Byte} (he : ¬ curdigit e < base) :
    ∀ {ds : List Digit} {v : Word}, (∀ d ∈ ds, d.value.val < base) →
      digitLoop base v (ds.map Digit.char ++ e :: rest) = some (ds.foldl (fun v d =>
        v * BitVec.ofNat 32 base + BitVec.ofNat 32 d.value.val) v, e :: rest) := by
  intro ds
  induction ds with
  | nil =>
    intro v _
    rw [List.map_nil, List.nil_append, digitLoop, if_neg he]
    rfl
  | cons d ds ih =>
    intro v hlt
    rw [List.map_cons, List.cons_append, digitLoop, Digit.curdigit_char,
      if_pos (hlt d List.mem_cons_self), ih fun d' hd => hlt d' (List.mem_cons_of_mem d hd)]
    rfl

theorem dstrtol_digits {e : Byte} (he : ¬ curdigit e < 16) {address : List Digit}
    (hne : address ≠ []) :
    dstrtol (address.map Digit.char ++ e :: rest) 16 = some (addressValue address, e :: rest) := by
  obtain ⟨d, ds, rfl⟩ := List.exists_cons_of_ne_nil hne
  obtain ⟨h0, -, hn, hs, ht, hm⟩ := d.char_plain
  have hblank : ¬ (d.char = chr ' ' ∨ d.char = chr '\t' ∨ d.char = chr '\n') := by
    simp [hs, ht, hn]
  have hskip : skipBlanks ((d :: ds).map Digit.char ++ e :: rest) =
      some (d.char :: (ds.map Digit.char ++ e :: rest)) := by
    rw [List.map_cons, List.cons_append, skipBlanks, if_neg hblank]
  rw [dstrtol_plain hskip h0 hm (baseOf_hex _) (Nat.le_refl 16)]
  exact @digitLoop_digits _ _ _ he (d :: ds) 0 fun d' _ => d'.value.isLt

/-- The number at the start of some bytes ends inside their line. -/
theorem dstrtol_data : ∀ {data : List DataByte}, data ≠ [] → ∃ v e s,
    dstrtol (dataText data ++ chr '\n' :: rest) 16 = some (v, e :: s) ∧ e ≠ chr ':' := by
  have key : ∀ data : List DataByte, ∃ (ds : List Digit) (e : Byte) (s : List Byte),
      dataText data ++ chr '\n' :: rest = ds.map Digit.char ++ e :: s ∧ e ≠ chr ':' ∧
        ¬ curdigit e < 16 ∧ (data ≠ [] → ds ≠ []) := by
    intro data
    induction data with
    | nil => exact ⟨[], chr '\n', rest, rfl, by decide, by decide, fun h => absurd rfl h⟩
    | cons b data ih =>
      rcases hb : b.blanks with _ | ⟨k, ks⟩
      · obtain ⟨ds, e, s, heq, hcolon, hdigit, -⟩ := ih
        refine ⟨b.high :: b.low :: ds, e, s, ?_, hcolon, hdigit, fun _ => by simp⟩
        rw [dataText_cons, List.append_assoc, heq]
        unfold DataByte.text
        rw [hb]
        rfl
      · obtain ⟨-, hcolon, -, hdigit, -⟩ := k.char_plain
        refine ⟨[b.high, b.low], k.char,
          ks.map Blank.char ++ (dataText data ++ chr '\n' :: rest), ?_, hcolon, hdigit,
          fun _ => by simp⟩
        rw [dataText_cons, List.append_assoc]
        unfold DataByte.text
        rw [hb]
        rfl
  intro data hne
  obtain ⟨ds, e, s, heq, hcolon, hdigit, hds⟩ := key data
  exact ⟨_, e, s, by rw [heq]; exact dstrtol_digits hdigit (hds hne), hcolon⟩

/-! ## The lines of a window -/

/-- What follows the lines in the buffer: the mark, and a NUL behind it. -/
def tailMark (junk : List Byte) : List Byte := chr 'Z' :: 0 :: junk

theorem dindex_before_nul {x : Byte} {a b : List Byte} (h0 : 0 ∉ a) (hx : x ≠ 0) :
    ∃ r, dindex x (a ++ x :: b) = some (some r) := by
  induction a with
  | nil => exact ⟨x :: b, by rw [List.nil_append, dindex, if_neg hx, if_pos rfl]⟩
  | cons c a ih =>
    rw [List.mem_cons, not_or] at h0
    rw [List.cons_append, dindex, if_neg (Ne.symm h0.1)]
    by_cases hc : c = x
    · exact ⟨_, if_pos hc⟩
    · rw [if_neg hc]
      exact ih h0.2

theorem dindex_tailMark : dindex (chr ':') (tailMark junk) = some none := by
  unfold tailMark
  have hne : ¬ chr 'Z' = 0 := by decide
  have hne' : ¬ chr 'Z' = chr ':' := by decide
  rw [dindex, if_neg hne, if_neg hne', dindex, if_pos rfl]

theorem mark_found {t : List Byte} (h0 : 0 ∉ t) :
    ∃ r, dindex (chr 'Z') (t ++ tailMark junk) = some (some r) :=
  dindex_before_nul h0 (by decide)

theorem mark_behind_line (l : Line) (h0 : 0 ∉ rest) :
    ∃ r, dindex (chr 'Z') (l.text ++ (rest ++ tailMark junk)) = some (some r) := by
  have htext : 0 ∉ l.text ++ rest := fun h => by
    rcases List.mem_append.mp h with h | h
    · exact l.text_nul h
    · exact h0 h
  rw [← List.append_assoc]
  exact mark_found htext

/-- The end of the window. -/
theorem lineLoop_end : lineLoop room (fuel + 1) ⟨tailMark junk, out, addr⟩ =
    some ⟨tailMark junk, out, addr⟩ := by
  obtain ⟨r, hr⟩ := @mark_found junk [] (by simp)
  rw [List.nil_append] at hr
  rw [lineLoop]
  simp only [hr, dindex_tailMark, Option.bind_eq_bind, Option.bind_some, if_true,
    reduceCtorEq, if_false]
  rfl

theorem text_append (l : Line) (rest : List Byte) : l.text ++ rest =
    l.address.map Digit.char ++ chr ':' ::
      (l.lead.map Blank.char ++ (dataText l.data ++ chr '\n' :: rest)) := by
  unfold Line.text lineText
  simp only [List.append_assoc, List.cons_append, List.nil_append]

theorem colon_found (l : Line) (rest : List Byte) :
    ∃ r, dindex (chr ':') (l.text ++ rest) = some (some r) := by
  rw [text_append]
  refine dindex_before_nul (fun h => ?_) (by decide)
  obtain ⟨d, -, hd⟩ := List.mem_map.mp h
  exact d.char_plain.1 hd

theorem line_head {l : Line} (hl : l.address ≠ []) (rest : List Byte) :
    ∃ c, at0 (l.text ++ rest) = some c ∧ c ≠ chr ':' := by
  obtain ⟨d, ds, hd⟩ := List.exists_cons_of_ne_nil hl
  refine ⟨d.char, ?_, d.char_plain.2.1⟩
  rw [text_append, hd]
  rfl

/-- A line with an address waits for the next call, where there are bytes already. -/
theorem lineLoop_waits {l : Line} (hl : l.address ≠ []) (h0 : 0 ∉ rest) (hout : out ≠ []) :
    lineLoop room (fuel + 1) ⟨l.text ++ (rest ++ tailMark junk), out, addr⟩ =
      some ⟨l.text ++ (rest ++ tailMark junk), out, addr⟩ := by
  obtain ⟨c, hc, hcolon⟩ := line_head hl (rest ++ tailMark junk)
  obtain ⟨q, hq⟩ := colon_found l (rest ++ tailMark junk)
  obtain ⟨r, hr⟩ := @mark_behind_line rest junk l h0
  rw [lineLoop]
  simp only [hr, hq, hc, Option.bind_eq_bind, Option.bind_some, reduceCtorEq, if_false]
  exact if_pos ⟨hcolon, hout⟩

/-- The address of a line is its own, or the one that the line before ends at. -/
theorem lineAddress_line (l : Line) (rest out : List Byte) (addr : Word) : ∃ c,
    at0 (l.text ++ rest) = some c ∧ (l.address = [] → c = chr ':') ∧
    lineAddress ⟨l.text ++ rest, out, addr⟩ c = some (l.start addr,
      chr ':' :: (l.lead.map Blank.char ++ (dataText l.data ++ chr '\n' :: rest))) := by
  unfold lineAddress Line.start
  by_cases hl : l.address = []
  · refine ⟨chr ':', ?_, fun _ => rfl, ?_⟩
    · rw [text_append, hl]
      rfl
    · rw [if_neg (by simp), if_pos hl, text_append, hl]
      rfl
  · obtain ⟨c, hc, hcolon⟩ := line_head hl rest
    refine ⟨c, hc, fun h => absurd h hl, ?_⟩
    rw [if_pos hcolon, if_neg hl, text_append]
    exact dstrtol_digits (by decide) hl

/-- One turn of the loop: the bytes of a line, up to the first refused one. -/
theorem lineLoop_line {l : Line} (h0 : 0 ∉ rest) (hout : l.address = [] ∨ out = [])
    (hroom : out.length + l.data.length ≤ room) :
    lineLoop room (fuel + 1) ⟨l.text ++ (rest ++ tailMark junk), out, addr⟩ =
      lineLoop room fuel ⟨if remaining l.data = [] then rest ++ tailMark junk
          else dataText (remaining l.data) ++ chr '\n' :: (rest ++ tailMark junk),
        out ++ (accepted l.data).map DataByte.value,
        l.start addr + BitVec.ofNat 32 (accepted l.data).length⟩ := by
  obtain ⟨c, hc, hnone, haddr⟩ := lineAddress_line l (rest ++ tailMark junk) out addr
  obtain ⟨q, hq⟩ := colon_found l (rest ++ tailMark junk)
  obtain ⟨r, hr⟩ := @mark_behind_line rest junk l h0
  have hgo : ¬ (c ≠ chr ':' ∧ out ≠ []) := by
    rintro ⟨hcolon, hne⟩
    rcases hout with hl | he
    · exact hcolon (hnone hl)
    · exact hne he
  rw [lineLoop]
  simp only [hr, hq, hc, haddr, Option.bind_eq_bind, Option.bind_some, reduceCtorEq, if_false,
    if_neg hgo]
  simp only [at0, List.head?_cons, Option.bind_some, ne_eq, not_true_eq_false, if_false,
    List.tail_cons]
  rw [dataLoop_blanks, dataLoop_data hroom]
  rfl

/-- In the middle of a line the loop stops. It looks for an address there, where there
are no bytes yet. -/
theorem lineLoop_inside {data : List DataByte} (hne : data ≠ []) (h0 : 0 ∉ rest) :
    ∃ x, lineLoop room (fuel + 1)
        ⟨dataText data ++ chr '\n' :: (rest ++ tailMark junk), out, addr⟩ = some x ∧ x.out = out ∧
      (out ≠ [] → x = ⟨dataText data ++ chr '\n' :: (rest ++ tailMark junk), out, addr⟩) := by
  obtain ⟨b, bs, rfl⟩ := List.exists_cons_of_ne_nil hne
  obtain ⟨s, hs⟩ : ∃ s, s = dataText (b :: bs) ++ chr '\n' :: (rest ++ tailMark junk) := ⟨_, rfl⟩
  have hc : at0 s = some b.high.char := by rw [hs]; rfl
  have hcolon : b.high.char ≠ chr ':' := b.high.char_plain.2.1
  have hplain : 0 ∉ dataText (b :: bs) ++ chr '\n' :: rest := by
    intro h
    rcases List.mem_append.mp h with h | h
    · exact (dataText_plain h).1 rfl
    · rcases List.mem_cons.mp h with h | h
      · exact absurd h (by decide)
      · exact h0 h
  obtain ⟨r, hr⟩ := @mark_found junk _ hplain
  rw [List.append_assoc, List.cons_append, ← hs] at hr
  obtain ⟨q, hq⟩ := Option.isSome_iff_exists.mp
    (dindex_isSome (x := chr ':') (l := s) (by rw [hs]; simp [tailMark]))
  obtain ⟨v, e, t, hv, he⟩ := @dstrtol_data (rest ++ tailMark junk) _ hne
  rw [← hs] at hv
  have haddr : lineAddress ⟨s, out, addr⟩ b.high.char = some (v, e :: t) := by
    unfold lineAddress
    rw [if_pos hcolon]
    exact hv
  rw [← hs, lineLoop]
  simp only [hr, hq, hc, haddr, Option.bind_eq_bind, Option.bind_some, reduceCtorEq, if_false]
  by_cases hnone : q = none
  · rw [if_pos hnone]
    exact ⟨_, rfl, rfl, fun _ => rfl⟩
  rw [if_neg hnone]
  by_cases hout : out = []
  · rw [if_neg (by simp [hout])]
    have hcut : (e ≠ chr ':') := he
    simp only [at0, List.head?_cons, Option.bind_some, if_pos hcut]
    exact ⟨_, rfl, rfl, fun h => absurd hout h⟩
  · rw [if_pos ⟨hcolon, hout⟩]
    exact ⟨_, rfl, rfl, fun _ => rfl⟩

end dlxos
