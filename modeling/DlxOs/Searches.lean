-- The searches for a character. `dindex` finds the first place of one. The outer
-- loop of `dmindex` stays at the start of the string, so it finds that place only,
-- and goes on for ever where another one is the first.
import DlxOs.Strings

namespace dlxos

variable {s chars rest rest' : List Byte} {x : Byte}

/-- The string from its first character on that is one of `chars`, up to the end of
the buffer. -/
def firstAmong (chars s rest : List Byte) : Option (List Byte) :=
  (s.findIdx? (· ∈ chars)).map fun i => s.drop i ++ 0 :: rest

theorem firstAmong_head {c : Byte} (hc : c ∈ chars) :
    firstAmong chars (c :: s) rest = some (c :: s ++ 0 :: rest) := by
  unfold firstAmong
  rw [List.findIdx?_cons, if_pos (by simpa using hc)]
  rfl

theorem firstAmong_tail {c : Byte} (hc : c ∉ chars) :
    firstAmong chars (c :: s) rest = firstAmong chars s rest := by
  unfold firstAmong
  rw [List.findIdx?_cons, if_neg (by simpa using hc), Option.map_map]
  rfl

theorem dindex_eq (h0 : 0 ∉ s) : dindex x (s ++ 0 :: rest) = some (firstAmong [x] s rest) := by
  induction s with
  | nil =>
    rw [List.nil_append, dindex, if_pos rfl]
    rfl
  | cons c s ih =>
    rw [List.mem_cons, not_or] at h0
    rw [List.cons_append, dindex, if_neg (Ne.symm h0.1)]
    by_cases hc : c = x
    · rw [if_pos hc, firstAmong_head (List.mem_singleton.mpr hc)]
      rfl
    · rw [if_neg hc, ih h0.2, firstAmong_tail (fun h => hc (List.mem_singleton.mp h))]

theorem occursIn_eq (h0 : 0 ∉ chars) :
    occursIn x (chars ++ 0 :: rest) = some (decide (x ∈ chars)) := by
  induction chars with
  | nil =>
    rw [List.nil_append, occursIn, if_pos rfl]
    rfl
  | cons c chars ih =>
    rw [List.mem_cons, not_or] at h0
    rw [List.cons_append, occursIn, if_neg (Ne.symm h0.1)]
    by_cases hc : x = c
    · simp [hc]
    · rw [if_neg hc, ih h0.2]
      simp [hc]

theorem dmindex_nil (fuel : Nat) (chars : List Byte) :
    dmindex (fuel + 1) (0 :: rest) chars = some none := by
  rw [dmindex, if_pos rfl]

/-- One turn of the outer loop. -/
theorem dmindex_turn {c : Byte} (hc : c ≠ 0) (h0 : 0 ∉ chars) (fuel : Nat) :
    dmindex (fuel + 1) (c :: s) (chars ++ 0 :: rest') =
      if c ∈ chars then some (some (c :: s))
      else dmindex fuel (c :: s) (chars ++ 0 :: rest') := by
  rw [dmindex, if_neg hc, occursIn_eq h0]
  by_cases hmem : c ∈ chars
  · simp [hmem]
  · simp [hmem]

/-- The loop does not get past a first character that is none of the others. -/
theorem dmindex_stuck {c : Byte} (hc : c ≠ 0) (h0 : 0 ∉ chars) (hmem : c ∉ chars)
    (fuel : Nat) : dmindex fuel (c :: s) (chars ++ 0 :: rest') = none := by
  induction fuel with
  | zero => rfl
  | succ fuel ih => rw [dmindex_turn hc h0, if_neg hmem, ih]

/-- `dmindex` ends, with the first place, just where the string is empty or starts with
one of the characters. -/
theorem dmindex_finds_iff (h0 : 0 ∉ s) (hchars : 0 ∉ chars) (rest rest' : List Byte) :
    ((∃ enough, ∀ fuel ≥ enough,
        dmindex fuel (s ++ 0 :: rest) (chars ++ 0 :: rest') = some (firstAmong chars s rest)) ∧
      ∀ x, chars = [x] → dindex x (s ++ 0 :: rest) = some (firstAmong chars s rest)) ↔
      ∀ c, s.head? = some c → c ∈ chars := by
  have hindex : ∀ x, chars = [x] →
      dindex x (s ++ 0 :: rest) = some (firstAmong chars s rest) := by
    rintro x rfl
    exact dindex_eq h0
  rw [and_iff_left hindex]
  cases s with
  | nil =>
    refine iff_of_true ⟨1, fun fuel hfuel => ?_⟩ fun c hc => nomatch hc
    obtain ⟨fuel, rfl⟩ := Nat.exists_eq_add_of_le' hfuel
    exact dmindex_nil fuel _
  | cons c s =>
    have hc : c ≠ 0 := fun he => h0 (he ▸ List.mem_cons_self)
    constructor
    · rintro ⟨enough, h⟩ c' hc'
      obtain rfl := Option.some.inj hc'
      by_contra hmem
      have hstuck := h enough (Nat.le_refl enough)
      rw [List.cons_append, dmindex_stuck hc hchars hmem] at hstuck
      cases hstuck
    · intro hhead
      have hmem := hhead c rfl
      refine ⟨1, fun fuel hfuel => ?_⟩
      obtain ⟨fuel, rfl⟩ := Nat.exists_eq_add_of_le' hfuel
      rw [List.cons_append, dmindex_turn hc hchars, if_pos hmem, firstAmong_head hmem]
      rfl

theorem dmindex_finds_first : (∃ enough, ∀ fuel ≥ enough,
    dmindex fuel [1, 2, 0] [1, 0] = some (firstAmong [1] [1, 2] [])) ∧
    ∀ x : Byte, [1] = [x] → dindex x [1, 2, 0] = some (firstAmong [1] [1, 2] []) :=
  (@dmindex_finds_iff [1, 2] [1] (by decide) (by decide) [] []).mpr
    fun c hc => Option.some.inj hc ▸ List.mem_singleton_self 1

/-- The search for `b` in `ab` does not end. -/
theorem dmindex_of_second : ¬ ∀ s chars rest rest' : List Byte, 0 ∉ s → 0 ∉ chars →
    (∃ enough, ∀ fuel ≥ enough,
      dmindex fuel (s ++ 0 :: rest) (chars ++ 0 :: rest') = some (firstAmong chars s rest)) ∧
    ∀ x, chars = [x] → dindex x (s ++ 0 :: rest) = some (firstAmong chars s rest) := by
  intro hall
  obtain ⟨⟨enough, h⟩, -⟩ := hall [chr 'a', chr 'b'] [chr 'b'] [] [] (by decide) (by decide)
  have hstuck : dmindex enough [chr 'a', chr 'b', 0] [chr 'b', 0] = none :=
    @dmindex_stuck [chr 'b', 0] [chr 'b'] [] _ (by decide) (by decide) (by decide) enough
  have hsome := h enough (Nat.le_refl enough)
  rw [show [chr 'a', chr 'b'] ++ 0 :: [] = [chr 'a', chr 'b', 0] from rfl,
    show [chr 'b'] ++ 0 :: [] = [chr 'b', 0] from rfl, hstuck] at hsome
  cases hsome

end dlxos
