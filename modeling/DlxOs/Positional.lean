-- Numbers in a base, with the highest digit in front: as a text shows them, as a
-- loop over the text takes them, and as a loop over the powers of the base gives
-- them. The module names no program.
import Mathlib.Data.Nat.Digits.Defs

namespace positional

variable {b n k : Nat}

/-! ## The value of some digits -/

/-- The number with the digits `ds`, the highest one first. -/
def value (b : Nat) (ds : List Nat) : Nat := Nat.ofDigits b ds.reverse

@[simp] theorem value_nil : value b [] = 0 := rfl

theorem value_append (ds es : List Nat) :
    value b (ds ++ es) = value b ds * b ^ es.length + value b es := by
  unfold value
  rw [List.reverse_append, Nat.ofDigits_append, List.length_reverse, Nat.mul_comm, Nat.add_comm]

theorem value_concat (ds : List Nat) (d : Nat) : value b (ds ++ [d]) = value b ds * b + d := by
  rw [value_append, List.length_singleton, Nat.pow_one]
  simp [value]

theorem value_cons (d : Nat) (ds : List Nat) :
    value b (d :: ds) = d * b ^ ds.length + value b ds := by
  have := value_append (b := b) [d] ds
  rw [List.singleton_append] at this
  rw [this]
  simp [value]

/-- The loop that multiplies by the base and adds the next digit, in a machine word. -/
theorem foldl_word {w : Nat} (ds : List Nat) (v : BitVec w) :
    ds.foldl (fun v d => v * BitVec.ofNat w b + BitVec.ofNat w d) v =
      v * BitVec.ofNat w (b ^ ds.length) + BitVec.ofNat w (value b ds) := by
  induction ds generalizing v with
  | nil => simp
  | cons d ds ih =>
    rw [List.foldl_cons, ih, value_cons, List.length_cons, Nat.pow_succ, BitVec.ofNat_add,
      BitVec.ofNat_mul, BitVec.ofNat_mul, BitVec.mul_comm (BitVec.ofNat w (b ^ ds.length)),
      ← BitVec.mul_assoc, ← BitVec.add_assoc, BitVec.mul_comm (v * _ + _), BitVec.mul_add,
      BitVec.mul_comm _ (v * _), BitVec.mul_comm _ (BitVec.ofNat w d)]

theorem foldl_zero {w : Nat} (ds : List Nat) :
    ds.foldl (fun v d => v * BitVec.ofNat w b + BitVec.ofNat w d) (0 : BitVec w) =
      BitVec.ofNat w (value b ds) := by
  rw [foldl_word]
  simp

/-! ## The digits of a number -/

/-- The `k` lowest digits of the number, from the top down. -/
def digitsFrom (b : Nat) : Nat → Nat → List Nat
  | 0, _ => []
  | k + 1, n => n / b ^ k :: digitsFrom b k (n % b ^ k)

@[simp] theorem digitsFrom_length : (digitsFrom b k n).length = k := by
  induction k generalizing n with
  | zero => rfl
  | succ k ih => rw [digitsFrom, List.length_cons, ih]

/-- The lowest digit comes off the end. -/
theorem digitsFrom_concat (h : n < b ^ (k + 1)) :
    digitsFrom b (k + 1) n = digitsFrom b k (n / b) ++ [n % b] := by
  induction k generalizing n with
  | zero =>
    rw [Nat.zero_add, Nat.pow_one] at h
    simp [digitsFrom, Nat.mod_eq_of_lt h]
  | succ k ih =>
    have hpos : 0 < b ^ (k + 1) := by
      refine Nat.pos_of_ne_zero fun h0 => ?_
      rw [Nat.pow_succ b (k + 1), h0, Nat.zero_mul] at h
      exact absurd h (Nat.not_lt_zero n)
    have hdiv : n / b ^ (k + 1) = n / b / b ^ k := by
      rw [Nat.div_div_eq_div_mul, Nat.pow_succ, Nat.mul_comm]
    have hmod : n % b ^ (k + 1) / b = n / b % b ^ k := by
      rw [Nat.pow_succ, Nat.mul_comm, Nat.mod_mul_right_div_self]
    have hlow : n % b ^ (k + 1) % b = n % b := by
      rw [Nat.pow_succ]
      exact Nat.mod_mod_of_dvd n (Nat.dvd_mul_left b (b ^ k))
    rw [digitsFrom, ih (Nat.mod_lt n hpos), hmod, hlow, hdiv]
    rfl

theorem value_digitsFrom (h : n < b ^ k) : value b (digitsFrom b k n) = n := by
  induction k generalizing n with
  | zero =>
    rw [Nat.pow_zero] at h
    rw [Nat.lt_one_iff.mp h]
    rfl
  | succ k ih =>
    have hdiv : n / b < b ^ k := by
      rw [Nat.pow_succ, Nat.mul_comm] at h
      exact Nat.div_lt_of_lt_mul h
    rw [digitsFrom_concat h, value_concat, ih hdiv, Nat.mul_comm]
    exact Nat.div_add_mod n b

theorem digitsFrom_lt (h : n < b ^ k) : ∀ d ∈ digitsFrom b k n, d < b := by
  induction k generalizing n with
  | zero => exact fun d hd => nomatch hd
  | succ k ih =>
    intro d hd
    rw [digitsFrom] at hd
    rw [Nat.pow_succ] at h
    rcases List.mem_cons.mp hd with rfl | hd
    · exact Nat.div_lt_of_lt_mul h
    · refine ih (Nat.mod_lt n (Nat.pos_of_ne_zero fun h0 => ?_)) d hd
      rw [h0, Nat.zero_mul] at h
      exact absurd h (Nat.not_lt_zero n)

/-- A number of `k + 1` digits is printed with those digits. -/
theorem toDigits_eq (hb : 1 < b) (hlo : b ^ k ≤ n ∨ k = 0) (hhi : n < b ^ (k + 1)) :
    Nat.toDigits b n = (digitsFrom b (k + 1) n).map Nat.digitChar := by
  induction k generalizing n with
  | zero =>
    rw [Nat.zero_add, Nat.pow_one] at hhi
    rw [Nat.toDigits_of_lt_base hhi]
    simp [digitsFrom]
  | succ k ih =>
    have hlo : b ^ (k + 1) ≤ n := hlo.resolve_right (Nat.succ_ne_zero k)
    have hpow : b ^ k ≤ n / b := by
      rw [Nat.le_div_iff_mul_le (by omega), ← Nat.pow_succ]
      exact hlo
    have hdiv : n / b < b ^ (k + 1) := by
      rw [Nat.pow_succ, Nat.mul_comm] at hhi
      exact Nat.div_lt_of_lt_mul hhi
    have hbase : b ≤ n := by
      refine Nat.le_trans ?_ hlo
      exact Nat.le_self_pow (Nat.succ_ne_zero k) b
    rw [Nat.toDigits_of_base_le hb hbase, digitsFrom_concat hhi, ih (.inl hpow) hdiv]
    simp

end positional
