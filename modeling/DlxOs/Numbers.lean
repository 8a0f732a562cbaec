-- The numbers that `dstrtol` reads: blanks, a sign, what shows the base, and the
-- longest run of digits. The value of the run wraps.
import DlxOs.LoadFile
import DlxOs.Positional
import Mathlib.Data.List.TakeWhile

namespace dlxos

variable {base : Nat} {c : Byte} {s t : List Byte}

/-! ## The grammar -/

/-- How the base shows: the caller gives it, or the text in front of the digits does. -/
inductive Lead where
  | given
  | hex (upper : Bool)
  | octal
  | decimal
deriving DecidableEq

def Lead.text : Lead → List Byte
  | .hex upper => [chr '0', if upper then chr 'X' else chr 'x']
  | .octal => [chr '0']
  | .given | .decimal => []

def Lead.radix (base : Nat) : Lead → Nat
  | .given => base
  | .hex _ => 16
  | .octal => 8
  | .decimal => 10

/-- The lead is the one for the caller's base and the text behind it. -/
def Lead.Fits (base : Nat) : Lead → List Byte → Prop
  | .given, _ => base ≠ 0
  | .hex _, _ => base = 0
  | .octal, text => base = 0 ∧ text.head? ≠ some (chr 'x') ∧ text.head? ≠ some (chr 'X')
  | .decimal, text => base = 0 ∧ text.head? ≠ some (chr '0')

def signText (negative : Bool) : List Byte := if negative then [chr '-'] else []

/-- The text does not start with a digit of the base. -/
def NoDigit (radix : Nat) (text : List Byte) : Prop :=
  ∀ d : Digit, d.value.val < radix → text.head? ≠ some d.char

/-- A text with a number at its start. Each part is as long as it can be. -/
structure Numeral (base : Nat) where
  blanks : List Byte
  negative : Bool
  lead : Lead
  run : List Digit
  rest : List Byte
  blank : ∀ c ∈ blanks, isBlank c = true
  start : ∀ c, (signText negative ++ lead.text ++ run.map Digit.char ++ rest).head? = some c →
    isBlank c = false
  unsigned : negative = false →
    (lead.text ++ run.map Digit.char ++ rest).head? ≠ some (chr '-')
  fits : lead.Fits base (run.map Digit.char ++ rest)
  digits : ∀ d ∈ run, d.value.val < lead.radix base
  ends : NoDigit (lead.radix base) rest

/-- The sign, the lead and the run, and the text behind them. -/
def Numeral.body (n : Numeral base) : List Byte :=
  signText n.negative ++ n.lead.text ++ n.run.map Digit.char ++ n.rest

def Numeral.text (n : Numeral base) : List Byte := n.blanks ++ n.body

/-- The value of the run, with the sign. -/
def Numeral.number (n : Numeral base) : Int :=
  let v := positional.value (n.lead.radix base) (n.run.map (·.value.val))
  if n.negative then -v else v

/-! ## Digits -/

/-- A character that counts as a digit of some base up to 16 is one. -/
theorem Digit.exists_char (h : curdigit c < 16) :
    ∃ d : Digit, d.char = c ∧ d.value.val = curdigit c := by
  have hlt := c.isLt
  refine ⟨⟨⟨curdigit c, h⟩, within 'A' 'Z' c⟩, BitVec.eq_of_toNat_eq ?_, rfl⟩
  unfold Digit.char
  revert h
  unfold curdigit within chr
  simp only [Bool.and_eq_true, decide_eq_true_eq, BitVec.le_def]
  split_ifs <;> simp_all <;> omega

theorem noDigit_iff {radix : Nat} (hr : radix ≤ 16) :
    NoDigit radix (c :: t) ↔ ¬ curdigit c < radix := by
  constructor
  · intro h hc
    obtain ⟨d, hd, hval⟩ := Digit.exists_char (Nat.lt_of_lt_of_le hc hr)
    exact h d (by omega) (by rw [hd]; rfl)
  · rintro h d hd he
    rw [Option.some.inj he, d.curdigit_char] at h
    exact h hd

theorem NoDigit.append_nul {radix : Nat} (h : NoDigit radix t) (hr : radix ≤ 16)
    (junk : List Byte) : ∃ e u, t ++ 0 :: junk = e :: u ∧ ¬ curdigit e < radix := by
  cases t with
  | nil =>
    have hnul : curdigit 0 = 1000 := by decide
    exact ⟨0, junk, rfl, by omega⟩
  | cons c t => exact ⟨c, t ++ 0 :: junk, rfl, (noDigit_iff hr).mp h⟩

/-! ## The parts of a number -/

theorem skipBlanks_append {blanks : List Byte} (hb : ∀ c ∈ blanks, isBlank c = true)
    (hc : isBlank c = false) : skipBlanks (blanks ++ c :: t) = some (c :: t) := by
  have hdrop : (blanks ++ c :: t).dropWhile isBlank = c :: t := by
    rw [List.dropWhile_append_of_pos hb, List.dropWhile_cons_of_neg (by simp [hc])]
  rw [skipBlanks_eq, hdrop, if_neg (List.cons_ne_nil c t)]

theorem baseOf_given (h : base ≠ 0) : baseOf base t = some (base, t) := by
  unfold baseOf
  rw [if_pos h]
  rfl

/-- The text does not end, as a NUL is behind it. -/
theorem baseOf_lead {lead : Lead} (h : lead.Fits base t) (junk : List Byte) :
    baseOf base (lead.text ++ t ++ 0 :: junk) = some (lead.radix base, t ++ 0 :: junk) := by
  cases lead with
  | given => exact baseOf_given h
  | hex upper =>
    obtain rfl : base = 0 := h
    cases upper <;> rfl
  | octal =>
    obtain ⟨rfl, hx, hX⟩ := h
    cases t with
    | nil => rfl
    | cons c t =>
      have hne : ¬ (c = chr 'x' ∨ c = chr 'X') := by
        rintro (rfl | rfl)
        · exact hx rfl
        · exact hX rfl
      simp [baseOf, Lead.text, Lead.radix, at0, hne]
  | decimal =>
    obtain ⟨rfl, h0⟩ := h
    cases t with
    | nil => rfl
    | cons c t =>
      have hne : c ≠ chr '0' := by simpa using h0
      simp [baseOf, Lead.text, Lead.radix, at0, hne]

theorem Lead.radix_le (lead : Lead) (hbase : base ≤ 16) : lead.radix base ≤ 16 := by
  cases lead
  · exact hbase
  · exact Nat.le_refl 16
  · exact Nat.le_of_ble_eq_true rfl
  · exact Nat.le_of_ble_eq_true rfl

namespace Numeral

/-- The digits up to the end of the run, with a NUL behind the text. -/
theorem digitLoop (n : Numeral base) (hbase : base ≤ 16) (junk : List Byte) :
    dlxos.digitLoop (n.lead.radix base) 0 (n.run.map Digit.char ++ n.rest ++ 0 :: junk) =
      some (BitVec.ofNat 32 (positional.value (n.lead.radix base) (n.run.map (·.value.val))),
        n.rest ++ 0 :: junk) := by
  obtain ⟨e, u, heq, he⟩ := n.ends.append_nul (n.lead.radix_le hbase) junk
  have hloop := @digitLoop_digits u _ e he n.run 0 n.digits
  rw [List.append_assoc, heq, hloop, ← positional.foldl_zero, List.foldl_map]

theorem text_nul (n : Numeral base) (junk : List Byte) : n.text ++ 0 :: junk = n.blanks ++
    (signText n.negative ++ (n.lead.text ++ (n.run.map Digit.char ++ n.rest ++ 0 :: junk))) := by
  simp [text, body]

/-- What stands behind the sign is empty, or its first character is no other sign. -/
theorem unsigned_cases (n : Numeral base) (hneg : n.negative = false) :
    (n.lead.text = [] ∧ n.run = [] ∧ n.rest = []) ∨ ∃ c t,
      n.lead.text ++ (n.run.map Digit.char ++ n.rest) = c :: t ∧ c ≠ chr '-' ∧
        isBlank c = false := by
  have hstart := n.start
  have hsign := n.unsigned hneg
  rw [hneg, signText, if_neg Bool.false_ne_true, List.nil_append] at hstart
  rw [List.append_assoc] at hsign hstart
  rcases hbody : n.lead.text ++ (n.run.map Digit.char ++ n.rest) with _ | ⟨c, t⟩
  · simp only [List.append_eq_nil_iff, List.map_eq_nil_iff] at hbody
    exact .inl hbody
  · rw [hbody] at hstart hsign
    exact .inr ⟨c, t, rfl, fun hc => hsign (hc ▸ rfl), hstart c rfl⟩

/-- `dstrtol` gives the number, and the text behind it. -/
theorem read (n : Numeral base) (hbase : base ≤ 16) (h0 : 0 ∉ n.text) (junk : List Byte) :
    dstrtol (n.text ++ 0 :: junk) base =
      some (BitVec.ofInt 32 n.number, n.rest ++ 0 :: junk) := by
  have hle := n.lead.radix_le hbase
  have hlead := baseOf_lead n.fits junk
  rw [List.append_assoc n.lead.text] at hlead
  have hloop := n.digitLoop hbase junk
  rw [text_nul]
  cases hneg : n.negative with
  | true =>
    have hminus : isBlank (chr '-') = false := by decide
    unfold signText number
    rw [if_pos rfl, List.singleton_append, hneg, if_pos rfl,
      dstrtol_minus (skipBlanks_append n.blank hminus) hlead hle, hloop, BitVec.ofInt_neg,
      BitVec.ofInt_natCast, Option.map_some, BitVec.mul_neg]
    exact congrArg (fun v => some (-v, n.rest ++ 0 :: junk)) (BitVec.mul_one _)
  | false =>
    unfold signText number
    rw [if_neg Bool.false_ne_true, List.nil_append, hneg, if_neg Bool.false_ne_true,
      BitVec.ofInt_natCast]
    rcases n.unsigned_cases hneg with ⟨hl, hr, hrest⟩ | ⟨c, t, hct, hc, hblank⟩
    · rw [hl, hr, hrest]
      exact dstrtol_nul (skipBlanks_append n.blank (by decide))
    · have hc0 : c ≠ 0 := by
        rintro rfl
        refine h0 (List.mem_append_right _ ?_)
        unfold body
        rw [List.append_assoc, List.append_assoc, hct]
        exact List.mem_append_right _ List.mem_cons_self
      have hall : n.lead.text ++ (n.run.map Digit.char ++ n.rest ++ 0 :: junk) =
          c :: (t ++ 0 :: junk) := by
        rw [← List.append_assoc, hct, List.cons_append]
      rw [hall] at hlead ⊢
      rw [dstrtol_plain (skipBlanks_append n.blank hblank) hc0 hc hlead hle, hloop]

end Numeral

/-! ## Every text has a number at its start -/

theorem exists_digits {radix : Nat} (hr : radix ≤ 16) (v : List Byte) :
    ∃ (run : List Digit) (rest : List Byte), v = run.map Digit.char ++ rest ∧
      (∀ d ∈ run, d.value.val < radix) ∧ NoDigit radix rest := by
  induction v with
  | nil => exact ⟨[], [], rfl, by simp, fun d _ h => nomatch h⟩
  | cons c v ih =>
    by_cases hc : curdigit c < radix
    · obtain ⟨d, hchar, hval⟩ := Digit.exists_char (Nat.lt_of_lt_of_le hc hr)
      obtain ⟨run, rest, heq, hrun, hrest⟩ := ih
      refine ⟨d :: run, rest, by rw [heq, ← hchar]; rfl, fun d' hd => ?_, hrest⟩
      rcases List.mem_cons.mp hd with rfl | hd
      · omega
      · exact hrun d' hd
    · exact ⟨[], c :: v, rfl, by simp, (noDigit_iff hr).mpr hc⟩

/-- Where the caller gives base 0, the text shows the base. -/
theorem exists_lead (base : Nat) (u : List Byte) :
    ∃ (lead : Lead) (v : List Byte), u = lead.text ++ v ∧ lead.Fits base v := by
  by_cases hbase : base = 0
  · by_cases h0 : u.head? = some (chr '0')
    · obtain ⟨v, rfl⟩ : ∃ v, u = chr '0' :: v := ⟨u.tail, List.eq_cons_of_mem_head? h0⟩
      by_cases hx : v.head? = some (chr 'x')
      · exact ⟨.hex false, v.tail, by rw [List.eq_cons_of_mem_head? hx]; rfl, hbase⟩
      by_cases hX : v.head? = some (chr 'X')
      · exact ⟨.hex true, v.tail, by rw [List.eq_cons_of_mem_head? hX]; rfl, hbase⟩
      · exact ⟨.octal, v, rfl, hbase, hx, hX⟩
    · exact ⟨.decimal, u, rfl, hbase, h0⟩
  · exact ⟨.given, u, rfl, hbase⟩

theorem exists_sign (t : List Byte) : ∃ (negative : Bool) (u : List Byte),
    t = signText negative ++ u ∧ (negative = false → u.head? ≠ some (chr '-')) := by
  by_cases h : t.head? = some (chr '-')
  · exact ⟨true, t.tail, List.eq_cons_of_mem_head? h, fun h => nomatch h⟩
  · exact ⟨false, t, rfl, fun _ => h⟩

theorem Numeral.exists_text (hbase : base ≤ 16) (s : List Byte) :
    ∃ n : Numeral base, n.text = s := by
  obtain ⟨negative, u, ht, hsign⟩ := exists_sign (s.dropWhile isBlank)
  obtain ⟨lead, v, hu, hfits⟩ := exists_lead base u
  obtain ⟨run, rest, hv, hrun, hrest⟩ := exists_digits (lead.radix_le hbase) v
  subst hv
  have hbody : signText negative ++ lead.text ++ run.map Digit.char ++ rest =
      s.dropWhile isBlank := by
    rw [ht, hu]
    simp
  refine ⟨⟨s.takeWhile isBlank, negative, lead, run, rest, fun c hc => ?_, fun c hc => ?_,
    fun h => ?_, hfits, hrun, hrest⟩, ?_⟩
  · exact List.mem_takeWhile_imp hc
  · rw [hbody] at hc
    have hhead := List.head?_dropWhile_not isBlank s
    rw [hc] at hhead
    simpa using hhead
  · rw [List.append_assoc, ← hu]
    exact hsign h
  · exact (congrArg (s.takeWhile isBlank ++ ·) hbody).trans List.takeWhile_append_dropWhile

/-- `dstrtol` against its grammar. A NUL stands behind the string, and the bytes
behind it may be missing. -/
theorem dstrtol_reads_number (hbase : base ≤ 16) (h0 : 0 ∉ s) :
    (∃ n : Numeral base, n.text = s) ∧ ∀ n : Numeral base, n.text = s → ∀ junk,
      dstrtol (s ++ 0 :: junk) base = some (BitVec.ofInt 32 n.number, n.rest ++ 0 :: junk) := by
  refine ⟨Numeral.exists_text hbase s, ?_⟩
  rintro n rfl junk
  exact n.read hbase h0 junk

/-- The number in the text `" -0x1Fg"`. -/
def minusHex : Numeral 0 where
  blanks := [chr ' ']
  negative := true
  lead := .hex false
  run := [⟨1, false⟩, ⟨15, true⟩]
  rest := [chr 'g']
  blank := by decide
  start := by
    rintro c ⟨⟩
    decide
  unsigned := nofun
  fits := rfl
  digits := fun d _ => d.value.isLt
  ends := Digit.forall_iff.mpr (by decide)

theorem minusHex_read :
    dstrtol (minusHex.text ++ [0]) 0 = some (BitVec.ofInt 32 (-31), [chr 'g', 0]) :=
  (dstrtol_reads_number (Nat.zero_le 16) (by decide)).2 minusHex rfl []

end dlxos
