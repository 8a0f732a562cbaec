-- Numbers in decimal. `ditoa` writes the text of a number from 0 to 999999999, and
-- of no other: below 0 it ends behind the sign, and from 10^9 on there is no power
-- of ten above the number that fits in an int.
import DlxOs.Numbers
import Mathlib.Data.Nat.Log

namespace dlxos

variable {n k : Word} {fuel m : Nat}

/-! ## The text of a number -/

def decimal (n : Nat) : List Byte := (Nat.toDigits 10 n).map chr

/-- The sign, where there is one, and the digits without superfluous zeros. -/
def numeral : Int → List Byte
  | .ofNat n => decimal n
  | .negSucc n => chr '-' :: decimal (n + 1)

def smallDigit (d : Nat) : Digit := ⟨Fin.ofNat BASE d, false⟩

/-- The digits of the number, from the highest power of ten in it. -/
def decimalRun (n : Nat) : List Digit :=
  (positional.digitsFrom 10 (Nat.log 10 n + 1) n).map smallDigit

theorem lt_pow_log (n : Nat) : n < 10 ^ (Nat.log 10 n + 1) :=
  Nat.lt_pow_succ_log_self (by decide) n

theorem pow_log_le (n : Nat) : 10 ^ Nat.log 10 n ≤ n ∨ Nat.log 10 n = 0 := by
  by_cases h : n = 0
  · exact .inr (by rw [h, Nat.log_zero_right])
  · exact .inl (Nat.pow_log_le_self 10 h)

theorem smallDigit_char : ∀ d < 10, (smallDigit d).char = chr (Nat.digitChar d) := by decide

theorem smallDigit_value : ∀ d < 10, (smallDigit d).value.val = d := by decide

theorem decimalRun_char (n : Nat) : (decimalRun n).map Digit.char = decimal n := by
  unfold decimalRun decimal
  rw [positional.toDigits_eq (by decide) (pow_log_le n) (lt_pow_log n), List.map_map, List.map_map]
  exact List.map_congr_left fun d hd =>
    smallDigit_char d (positional.digitsFrom_lt (lt_pow_log n) d hd)

theorem decimalRun_values (n : Nat) : (decimalRun n).map (·.value.val) =
    positional.digitsFrom 10 (Nat.log 10 n + 1) n := by
  unfold decimalRun
  rw [List.map_map]
  have hid := List.map_congr_left (g := id) fun d hd =>
    smallDigit_value d (positional.digitsFrom_lt (lt_pow_log n) d hd)
  rw [List.map_id] at hid
  exact hid

theorem decimalRun_lt (n : Nat) : ∀ d ∈ decimalRun n, d.value.val < 10 := by
  intro d hd
  have hmem := List.mem_map_of_mem (f := fun d : Digit => d.value.val) hd
  rw [decimalRun_values] at hmem
  exact positional.digitsFrom_lt (lt_pow_log n) _ hmem

theorem decimalRun_value (n : Nat) :
    positional.value 10 ((decimalRun n).map (·.value.val)) = n := by
  rw [decimalRun_values]
  exact positional.value_digitsFrom (lt_pow_log n)

theorem numeral_eq (z : Int) :
    numeral z = signText (z < 0) ++ (decimalRun z.natAbs).map Digit.char := by
  rw [decimalRun_char]
  cases z with
  | ofNat n => simp [numeral, signText]
  | negSucc n => simp [numeral, signText, Int.negSucc_lt_zero]

theorem mem_numeral {z : Int} {c : Byte} (hc : c ∈ numeral z) : isBlank c = false ∧ c ≠ 0 := by
  rw [numeral_eq] at hc
  rcases List.mem_append.mp hc with h | h
  · unfold signText at h
    split at h
    · rw [List.mem_singleton.mp h]
      decide
    · cases h
  · obtain ⟨d, -, rfl⟩ := List.mem_map.mp h
    obtain ⟨h0, -, hn, hs, ht, -⟩ := d.char_plain
    exact ⟨by simp [isBlank, hn, hs, ht], h0⟩

/-- The text of a number, as `dstrtol` reads it. -/
def decimalNumeral (z : Int) : Numeral 10 where
  blanks := []
  negative := z < 0
  lead := .given
  run := decimalRun z.natAbs
  rest := []
  blank := fun c hc => nomatch hc
  start := fun c hc => by
    have hmem := List.mem_of_mem_head? hc
    rw [List.append_nil, Lead.text, List.append_nil, ← numeral_eq] at hmem
    exact (mem_numeral hmem).1
  unsigned := fun _ hc => by
    have hmem := List.mem_of_mem_head? hc
    rw [List.append_nil, Lead.text, List.nil_append] at hmem
    obtain ⟨d, -, hd⟩ := List.mem_map.mp hmem
    exact d.char_plain.2.2.2.2.2 hd
  fits := Nat.succ_ne_zero 9
  digits := decimalRun_lt z.natAbs
  ends := fun _ _ h => nomatch h

theorem decimalNumeral_text (z : Int) : (decimalNumeral z).text = numeral z := by
  rw [numeral_eq]
  simp [Numeral.text, Numeral.body, decimalNumeral, Lead.text]

theorem decimalNumeral_number (z : Int) : (decimalNumeral z).number = z := by
  have hvalue := decimalRun_value z.natAbs
  unfold Numeral.number
  simp only [decimalNumeral, Lead.radix, hvalue, decide_eq_true_eq]
  split <;> omega

/-- `dstrtol` reads every number back, in the word that it fits in. -/
theorem dstrtol_numeral (z : Int) (rest : List Byte) :
    dstrtol (numeral z ++ 0 :: rest) 10 = some (BitVec.ofInt 32 z, 0 :: rest) := by
  have hnul : 0 ∉ (decimalNumeral z).text := by
    rw [decimalNumeral_text]
    exact fun h => (mem_numeral h).2 rfl
  have hread := (decimalNumeral z).read (by decide) hnul rest
  rw [decimalNumeral_text, decimalNumeral_number] at hread
  exact hread

/-! ## Words that are not negative -/

theorem toInt_small (h : n.toNat < 2 ^ 31) : n.toInt = n.toNat :=
  BitVec.toInt_eq_toNat_of_lt (by omega)

theorem sdiv_small (hn : n.toNat < 2 ^ 31) (hk : k.toNat < 2 ^ 31) :
    (n.sdiv k).toNat = n.toNat / k.toNat := by
  have hmn : n.msb = false := BitVec.msb_eq_false_iff_two_mul_lt.mpr (by omega)
  have hmk : k.msb = false := BitVec.msb_eq_false_iff_two_mul_lt.mpr (by omega)
  rw [BitVec.toNat_sdiv, hmn, hmk]
  exact BitVec.toNat_udiv

theorem srem_small (hn : n.toNat < 2 ^ 31) (hk : k.toNat < 2 ^ 31) :
    (n.srem k).toNat = n.toNat % k.toNat := by
  have hmn : n.msb = false := BitVec.msb_eq_false_iff_two_mul_lt.mpr (by omega)
  have hmk : k.msb = false := BitVec.msb_eq_false_iff_two_mul_lt.mpr (by omega)
  rw [BitVec.toNat_srem, hmn, hmk]

/-- A power of ten below `10^10` as a word. -/
def power (m : Nat) : Word := BitVec.ofNat 32 (10 ^ m)

theorem power_toNat (hm : m ≤ 9) : (power m).toNat = 10 ^ m ∧ 10 ^ m < 2 ^ 31 := by
  have hle : 10 ^ m ≤ 10 ^ 9 := Nat.pow_le_pow_right (by decide) hm
  have hmax : 10 ^ 9 < 2 ^ 31 := by decide
  refine ⟨?_, Nat.lt_of_le_of_lt hle hmax⟩
  unfold power
  rw [BitVec.toNat_ofNat, Nat.mod_eq_of_lt (by omega)]

theorem power_succ (m : Nat) : power (m + 1) = power m * 10 := by
  unfold power
  rw [Nat.pow_succ, BitVec.ofNat_mul]
  rfl

theorem power_sdiv (hm : m ≤ 8) : (power (m + 1)).sdiv 10 = power m := by
  obtain ⟨h1, hlt⟩ := power_toNat (m := m + 1) (by omega)
  obtain ⟨h0, -⟩ := power_toNat (m := m) (by omega)
  apply BitVec.eq_of_toNat_eq
  rw [sdiv_small (by omega) (by decide), h1, h0, Nat.pow_succ]
  exact Nat.mul_div_cancel _ (by decide)

/-! ## The scale -/

theorem scaleLoop_powers (hm : m ≤ 8) (hlo : 10 ^ m ≤ n.toNat) (hhi : n.toNat < 10 ^ (m + 1)) :
    ∀ (fuel : Nat) {i : Nat}, i ≤ m + 1 → m + 1 - i < fuel →
      scaleLoop n fuel (power i) = some (power (m + 1)) := by
  obtain ⟨htop, hmax⟩ := power_toNat (m := m + 1) (by omega)
  intro fuel
  induction fuel with
  | zero =>
    intro i _ hfuel
    omega
  | succ fuel ih =>
    intro i hi hfuel
    obtain ⟨hpow, hlt⟩ := power_toNat (m := i) (by omega)
    have hsle : (power i).sle n ↔ i ≤ m := by
      rw [BitVec.sle_iff_toInt_le, toInt_small (by omega), toInt_small (by omega), hpow,
        Int.ofNat_le]
      constructor
      · intro hle
        by_contra hgt
        rw [show i = m + 1 by omega] at hle
        omega
      · exact fun hle => Nat.le_trans (Nat.pow_le_pow_right (by decide) hle) hlo
    unfold scaleLoop
    by_cases him : i ≤ m
    · rw [if_pos (hsle.mpr him), ← power_succ]
      exact ih (by omega) (by omega)
    · rw [if_neg (fun h => him (hsle.mp h)), show i = m + 1 by omega]

/-- The scale is above the number. -/
theorem scaleLoop_gt {scale : Word} : ∀ {fuel : Nat} {k : Word},
    scaleLoop n fuel k = some scale → n.toInt < scale.toInt := by
  intro fuel
  induction fuel with
  | zero => exact fun h => nomatch h
  | succ fuel ih =>
    intro k h
    unfold scaleLoop at h
    split at h
    · exact ih h
    · rename_i hk
      rw [BitVec.sle_iff_toInt_le] at hk
      obtain rfl := Option.some.inj h
      omega

/-! ## The digits -/

theorem digitByte {q : Word} (hq : q.toNat < 10) :
    (q + (chr '0').setWidth 32).setWidth 8 = (smallDigit q.toNat).char := by
  have hall : ∀ d < 10, (BitVec.ofNat 32 d + (chr '0').setWidth 32).setWidth 8 =
      (smallDigit d).char := by decide
  have hd := hall q.toNat hq
  rwa [BitVec.ofNat_toNat, BitVec.setWidth_eq] at hd

/-- One turn of the loop, with the power of ten `p` that it divides by. -/
theorem ditoaLoop_turn {p : Word} (hp : k.sdiv 10 = p) (hne : p ≠ 0) :
    ditoaLoop (fuel + 1) n k =
      if (1 : Word).slt p then (ditoaLoop fuel (n.srem p) p).map
        (((n.sdiv p + (chr '0').setWidth 32).setWidth 8) :: ·)
      else some [(n.sdiv p + (chr '0').setWidth 32).setWidth 8] := by
  rw [ditoaLoop]
  simp only [hp, if_neg hne]
  split
  · cases ditoaLoop fuel (n.srem p) p <;> rfl
  · rfl

theorem ditoaLoop_zero (hp : k.sdiv 10 = 0) : ditoaLoop (fuel + 1) n k = none := by
  rw [ditoaLoop]
  simp only [hp, if_true]
  rfl

theorem one_slt {p : Word} (hp : p.toNat < 2 ^ 31) : (1 : Word).slt p ↔ 1 < p.toNat := by
  have hone : (1 : Word).toInt = 1 := by decide
  rw [BitVec.slt_iff_toInt_lt, toInt_small hp, hone]
  omega

theorem ditoaLoop_powers : ∀ {m : Nat} (fuel : Nat) {n : Word}, m ≤ 8 → n.toNat < 10 ^ (m + 1) →
    m < fuel → ditoaLoop fuel n (power (m + 1)) =
      some (((positional.digitsFrom 10 (m + 1) n.toNat).map smallDigit).map Digit.char) := by
  intro m
  induction m with
  | zero =>
    intro fuel n hm hn hfuel
    obtain ⟨fuel, rfl⟩ := Nat.exists_eq_add_of_lt hfuel
    have hdiv : n.sdiv (power 0) = n := BitVec.sdiv_one
    rw [Nat.zero_add, ditoaLoop_turn (power_sdiv hm) (by decide), if_neg (by decide), hdiv,
      digitByte hn]
    simp [positional.digitsFrom]
  | succ m ih =>
    intro fuel n hm hn hfuel
    obtain ⟨fuel, rfl⟩ := Nat.exists_eq_succ_of_ne_zero (Nat.ne_of_gt (Nat.zero_lt_of_lt hfuel))
    obtain ⟨hpow, hlt⟩ := power_toNat (m := m + 1) (by omega)
    obtain ⟨-, hmax⟩ := power_toNat (m := m + 1 + 1) (by omega)
    have hten : 10 ≤ 10 ^ (m + 1) := Nat.le_self_pow (Nat.succ_ne_zero m) 10
    have hne : power (m + 1) ≠ 0 := by
      intro h0
      rw [h0, show (0 : Word).toNat = 0 from rfl] at hpow
      omega
    have hq := sdiv_small (n := n) (k := power (m + 1)) (by omega) (by omega)
    have hr := srem_small (n := n) (k := power (m + 1)) (by omega) (by omega)
    rw [hpow] at hq hr
    have hdigit : (n.sdiv (power (m + 1))).toNat < 10 := by
      rw [hq]
      exact Nat.div_lt_of_lt_mul (by rwa [← Nat.pow_succ])
    have hrest : (n.srem (power (m + 1))).toNat < 10 ^ (m + 1) := by
      rw [hr]
      exact Nat.mod_lt _ (by omega)
    rw [ditoaLoop_turn (power_sdiv hm) hne, if_pos ((one_slt (by omega)).mpr (by omega)),
      ih fuel (by omega) hrest (by omega), digitByte hdigit, hq, hr]
    rfl

/-- The loop stops after as many digits as the scale has zeros. -/
theorem pow_length_le : ∀ {fuel : Nat} {n k : Word} {out : List Byte},
    ditoaLoop fuel n k = some out → k.toNat < 2 ^ 31 → 10 ^ out.length ≤ k.toNat := by
  intro fuel
  induction fuel with
  | zero => exact fun h => nomatch h
  | succ fuel ih =>
    intro n k out h hk
    have hp := sdiv_small (n := k) (k := 10) hk (by decide)
    rw [show (10 : Word).toNat = 10 from rfl] at hp
    by_cases hne : k.sdiv 10 = 0
    · rw [ditoaLoop_zero hne] at h
      cases h
    have hpos : (k.sdiv 10).toNat ≠ 0 := fun h0 => hne (BitVec.eq_of_toNat_eq h0)
    rw [ditoaLoop_turn rfl hne] at h
    split at h
    · obtain ⟨rest, hrest, rfl⟩ := Option.map_eq_some_iff.mp h
      have := ih hrest (by omega)
      rw [List.length_cons, Nat.pow_succ]
      omega
    · obtain rfl := Option.some.inj h
      rw [List.length_singleton]
      omega

/-! ## The round trip -/

theorem ditoa_small (hpos : 0 < n.toNat) (hn : n.toNat < 10 ^ 9) (hfuel : 10 < fuel) :
    ditoa fuel n = some (numeral n.toInt ++ [0]) := by
  have hlog : Nat.log 10 n.toNat ≤ 8 := by
    by_contra hgt
    have hle : 10 ^ 9 ≤ 10 ^ Nat.log 10 n.toNat := Nat.pow_le_pow_right (by decide) (by omega)
    have := Nat.pow_log_le_self 10 (Nat.ne_of_gt hpos)
    omega
  have hint := toInt_small (n := n) (by omega)
  have hneg : n.slt 0 = false := by
    rw [BitVec.slt_eq_decide, hint]
    simp
  have hne : n ≠ 0 := by
    rintro rfl
    exact absurd hpos (by decide)
  have hscale := scaleLoop_powers hlog (Nat.pow_log_le_self 10 (Nat.ne_of_gt hpos))
    (lt_pow_log n.toNat) fuel (Nat.zero_le _) (by omega)
  have hloop := ditoaLoop_powers fuel hlog (lt_pow_log n.toNat) (by omega)
  rw [show power 0 = 1 from rfl] at hscale
  unfold ditoa
  rw [hneg, hint]
  simp only [Bool.false_eq_true, if_false, hne, hscale, hloop, Option.bind_eq_bind,
    Option.bind_some]
  exact congrArg (fun l => some (l ++ [0])) (decimalRun_char n.toNat)

theorem ditoa_zero : ditoa fuel 0 = some (numeral 0 ++ [0]) := by
  have hzero : numeral 0 = [chr '0'] := by decide
  rw [hzero]
  rfl

/-- Only the sign is written. -/
theorem ditoa_negative (hn : n.toInt < 0) : ditoa fuel n = some [chr '-', 0] := by
  have hslt : n.slt 0 = true := BitVec.slt_iff_toInt_lt.mpr hn
  unfold ditoa
  rw [if_pos hslt]
  rfl

/-- Whatever is written for a large number, it has too few digits. -/
theorem ditoa_large {text : List Byte} (hn : (10 : Int) ^ 9 ≤ n.toInt)
    (h : ditoa fuel n = some text) : text.length ≤ 10 := by
  have hneg : n.slt 0 = false := by
    rw [BitVec.slt_eq_decide]
    exact decide_eq_false (by simp; omega)
  have hne : n ≠ 0 := by
    rintro rfl
    exact absurd hn (by decide)
  unfold ditoa at h
  rw [hneg] at h
  simp only [Bool.false_eq_true, if_false, hne, Option.bind_eq_bind] at h
  obtain ⟨k, hk, h⟩ := Option.bind_eq_some_iff.mp h
  obtain ⟨digits, hdigits, h⟩ := Option.bind_eq_some_iff.mp h
  obtain rfl := Option.some.inj h
  have hgt := scaleLoop_gt hk
  have hsmall : k.toNat < 2 ^ 31 := by
    have := BitVec.toInt_eq_toNat_cond k
    split at this <;> omega
  have hpow := pow_length_le hdigits hsmall
  rw [List.length_append, List.length_singleton]
  by_contra hlen
  have hten : 10 ^ 10 ≤ 10 ^ digits.length := Nat.pow_le_pow_right (by decide) (by omega)
  omega

theorem numeral_large (hn : (10 : Int) ^ 9 ≤ n.toInt) : 10 ≤ (numeral n.toInt).length := by
  obtain ⟨m, hm⟩ := Int.eq_ofNat_of_zero_le (show 0 ≤ n.toInt by omega)
  rw [hm] at hn ⊢
  have hlen : ¬ (Nat.toDigits 10 m).length ≤ 9 := by
    rw [Nat.length_toDigits_le_iff (by decide) (by decide)]
    omega
  change 10 ≤ (decimal m).length
  unfold decimal
  rw [List.length_map]
  omega

theorem numeral_negative {z : Int} (hz : z < 0) : 2 ≤ (numeral z).length := by
  obtain ⟨m, rfl⟩ := Int.eq_negSucc_of_lt_zero hz
  have hlen : 0 < (Nat.toDigits 10 (m + 1)).length := Nat.length_toDigits_pos
  change 2 ≤ (chr '-' :: decimal (m + 1)).length
  unfold decimal
  rw [List.length_cons, List.length_map]
  omega

/-- `ditoa` writes the numeral of a number, and `dstrtol` reads the number back, just
for the numbers of at most nine digits that are not negative. -/
theorem decimal_round_trip_iff (n : Word) :
    (∃ enough, ∀ fuel ≥ enough, ∃ text, ditoa fuel n = some (text ++ [0]) ∧
      text = numeral n.toInt ∧ ∀ rest, dstrtol (text ++ 0 :: rest) 10 = some (n, 0 :: rest)) ↔
      0 ≤ n.toInt ∧ n.toInt < 10 ^ 9 := by
  constructor
  · rintro ⟨enough, h⟩
    obtain ⟨text, hditoa, rfl, -⟩ := h enough (Nat.le_refl enough)
    constructor
    · by_contra hneg
      rw [ditoa_negative (by omega)] at hditoa
      have hlen := congrArg List.length (Option.some.inj hditoa)
      have hlong := numeral_negative (z := n.toInt) (by omega)
      rw [List.length_append] at hlen
      simp only [List.length_cons, List.length_nil] at hlen
      omega
    · by_contra hlarge
      have hshort := ditoa_large (by omega) hditoa
      have hlong := numeral_large (n := n) (by omega)
      rw [List.length_append, List.length_singleton] at hshort
      omega
  · rintro ⟨hpos, hlt⟩
    refine ⟨11, fun fuel hfuel => ⟨numeral n.toInt, ?_, rfl, fun rest => ?_⟩⟩
    · have hcond := BitVec.toInt_eq_toNat_cond n
      rcases Nat.eq_zero_or_pos n.toNat with h0 | h0
      · obtain rfl : n = 0 := BitVec.eq_of_toNat_eq h0
        exact ditoa_zero
      · exact ditoa_small h0 (by split at hcond <;> omega) (by omega)
    · rw [dstrtol_numeral, BitVec.ofInt_toInt]

/-- The text of -1 ends behind the sign. -/
theorem ditoa_minus_one : ¬ ∀ n : Word,
    ∃ enough, ∀ fuel ≥ enough, ∃ text, ditoa fuel n = some (text ++ [0]) ∧
      text = numeral n.toInt ∧
      ∀ rest, dstrtol (text ++ 0 :: rest) 10 = some (n, 0 :: rest) := by
  intro hall
  obtain ⟨enough, h⟩ := hall (-1)
  obtain ⟨text, hditoa, rfl, -⟩ := h enough (Nat.le_refl enough)
  have hone : ditoa enough (-1) = some [chr '-', 0] := rfl
  rw [hone] at hditoa
  exact absurd hditoa (by decide)

end dlxos
