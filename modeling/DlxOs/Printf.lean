-- The trap that prints. It copies the format string and ten words of arguments to
-- the stack of the kernel, and then takes a word for each conversion of the string.
-- What the arrays hold at first is a parameter.
import DlxOs.CreateModes
import DlxOs.LoaderBounds

namespace dlxos

open Function

variable {mem : UserMemory} {p w : Word} {s junk args buf : List Byte} {out : List Word}
  {nargs n : Nat}

/-! ## The trap -/

/-- The arrays of `TrapPrintfHandler`. -/
structure PrintfArrays where
  formatstr : List Byte
  args : List Byte
  printfArgs : List Word
  formatstr_length : formatstr.length = 80
  args_length : args.length = 4 * 10
  printfArgs_length : printfArgs.length = 10

/-- `printfArgs[nargs] = args[nargs+1]` -/
def takeArgument (args : List Byte) (nargs : Nat) (out : List Word) : Option (List Word) := do
  store out nargs (← wordAt args (nargs + 1))

mutual

/-- The loop over the format string, with what stands in `printfArgs`. There is no
result where it reads behind the end of the bytes, or outside of an array. -/
def formatLoop (args : List Byte) : List Byte → Nat → List Word → Option (List Word)
  | [], _, _ => none
  | c :: cs, nargs, out =>
    if c = 0 then some out
    else if c ≠ chr '%' then formatLoop args cs nargs out
    else match cs with
      | [] => none
      | d :: ds =>
        if d = chr '%' then formatLoop args ds nargs out
        else do
          let out ← takeArgument args nargs out
          conversionLoop args (d :: ds) nargs out

/-- The loop up to the letter of a conversion. -/
def conversionLoop (args : List Byte) : List Byte → Nat → List Word → Option (List Word)
  | [], _, _ => none
  | c :: cs, nargs, out =>
    if c = chr 's' then formatLoop args cs (nargs + 1) out
    else if c = chr 'l' then conversionLoop args cs nargs out
    else if c = chr 'f' ∨ c = chr 'g' ∨ c = chr 'e' then do
      let nargs := nargs + 1
      let out ← takeArgument args nargs out
      formatLoop args cs (nargs + 1) out
    else if within 'a' 'z' c then formatLoop args cs (nargs + 1) out
    else conversionLoop args cs nargs out

end

/-- The arrays before the loops: the format string, the arguments, and the memory. In
the system branch the format string is copied the wrong way round. -/
structure PrintfInput where
  formatstr : List Byte
  args : List Byte
  ram : Ram

def copyFormat (pcb : PCB) (a : PrintfArrays) (trapArgs : Word) (sysMode : Bool) (ram : Ram) :
    Option PrintfInput := do
  if sysMode then
    let args := filled (userBytes (fun a => some (ram a)) trapArgs (4 * 10)) a.args
    let ram ← dstrncpy 80 (← wordAt args 0) a.formatstr ram
    return ⟨a.formatstr.set 79 0, args, ram⟩
  else
    let user := userMemory pcb ram
    let args := filled (userBytes user trapArgs (4 * 10)) a.args
    let (_, formatstr) ← copyLoop user (← wordAt args 0) 80 80 0 0 a.formatstr
    return ⟨formatstr.set 79 0, args, ram⟩

/-- What goes to `printf`: the format string and eight words. -/
structure Printed where
  formatstr : List Byte
  words : List Word
  ram : Ram

def TrapPrintfHandler (pcb : PCB) (a : PrintfArrays) (trapArgs : Word) (sysMode : Bool)
    (ram : Ram) : Except Halt Printed := do
  let x ← inside (copyFormat pcb a trapArgs sysMode ram)
  let words ← inside (formatLoop x.args x.formatstr 0 a.printfArgs)
  return ⟨x.formatstr, words.take 8, x.ram⟩

/-! ## Formats -/

/-- The loop goes past the character inside a conversion. -/
def isFlag (c : Byte) : Bool := !within 'a' 'z' c || c = chr 'l'

/-- A conversion is an `f`, `g` or `e`, which takes two words. -/
def isFloat (c : Byte) : Bool := c = chr 'f' ∨ c = chr 'g' ∨ c = chr 'e'

/-- The parts of a format. A `%` that no other one follows is a conversion, with
flags up to a letter. -/
inductive Piece where
  | plain (c : Byte) (h : c ≠ chr '%')
  | percent
  | conversion (flags : List Byte) (letter : Byte) (hflags : ∀ c ∈ flags, isFlag c = true)
      (hfirst : flags.head? ≠ some (chr '%')) (hletter : isFlag letter = false)

def Piece.text : Piece → List Byte
  | .plain c _ => [c]
  | .percent => [chr '%', chr '%']
  | .conversion flags letter .. => chr '%' :: (flags ++ [letter])

/-- How many words a conversion takes. -/
def width (letter : Byte) : Nat := if isFloat letter then 2 else 1

def Piece.words : Piece → Nat
  | .plain .. | .percent => 0
  | .conversion _ letter .. => width letter

/-! ## The turns of the loops -/

theorem formatLoop_nul (cs : List Byte) : formatLoop args (0 :: cs) nargs out = some out := by
  rw [formatLoop.eq_def]
  exact if_pos rfl

theorem formatLoop_plain {c : Byte} (h0 : c ≠ 0) (h : c ≠ chr '%') (cs : List Byte) :
    formatLoop args (c :: cs) nargs out = formatLoop args cs nargs out := by
  rw [formatLoop.eq_def]
  exact (if_neg h0).trans (if_pos h)

theorem formatLoop_percent (cs : List Byte) :
    formatLoop args (chr '%' :: chr '%' :: cs) nargs out = formatLoop args cs nargs out := by
  rw [formatLoop.eq_def]
  rfl

theorem formatLoop_conversion {d : Byte} (h : d ≠ chr '%') (ds : List Byte) :
    formatLoop args (chr '%' :: d :: ds) nargs out =
      (takeArgument args nargs out).bind (conversionLoop args (d :: ds) nargs) := by
  have h0 : ¬ chr '%' = 0 := by decide
  rw [formatLoop.eq_def]
  simp only [if_neg h0, ne_eq, not_true, if_false, if_neg h]
  rfl

/-! ## The letter of a conversion -/

theorem isFlag_cases (c : Byte) : (isFlag c = true ∧ c ≠ chr 's' ∧ (c = chr 'l' ∨
    isFloat c = false ∧ within 'a' 'z' c = false)) ∨ (isFlag c = false ∧ c ≠ chr 'l' ∧
    within 'a' 'z' c = true) := by
  have hletters : within 'a' 'z' (chr 's') = true ∧ within 'a' 'z' (chr 'f') = true ∧
      within 'a' 'z' (chr 'g') = true ∧ within 'a' 'z' (chr 'e') = true ∧
      isFlag (chr 'l') = true ∧ chr 'l' ≠ chr 's' := by decide
  obtain ⟨hs, hf, hg, he, hl, hls⟩ := hletters
  by_cases hc : c = chr 'l'
  · rw [hc]
    exact .inl ⟨hl, hls, .inl rfl⟩
  cases hw : within 'a' 'z' c with
  | true => exact .inr ⟨by simp [isFlag, hw, hc], hc, rfl⟩
  | false =>
    refine .inl ⟨by simp [isFlag, hw], ?_, .inr ⟨?_, rfl⟩⟩
    · rintro rfl
      rw [hs] at hw
      cases hw
    · rw [isFloat, decide_eq_false_iff_not]
      rintro (rfl | rfl | rfl)
      · rw [hf] at hw
        cases hw
      · rw [hg] at hw
        cases hw
      · rw [he] at hw
        cases hw

/-- The loop goes past a flag. -/
theorem conversionLoop_flag {c : Byte} (hc : isFlag c = true) (cs : List Byte) :
    conversionLoop args (c :: cs) nargs out = conversionLoop args cs nargs out := by
  rw [conversionLoop]
  rcases isFlag_cases c with ⟨-, hs, rfl | ⟨hf, hw⟩⟩ | ⟨h, -⟩
  · rw [if_neg hs, if_pos rfl]
  · rw [isFloat, decide_eq_false_iff_not] at hf
    by_cases hl : c = chr 'l'
    · rw [if_neg hs, if_pos hl]
    · simp only [if_neg hs, if_neg hl, if_neg hf, hw, Bool.false_eq_true, if_false]
  · rw [h] at hc
    cases hc

/-- The loop ends at a letter. -/
theorem conversionLoop_letter {c : Byte} (hc : isFlag c = false) (cs : List Byte) :
    conversionLoop args (c :: cs) nargs out =
      if isFloat c then (takeArgument args (nargs + 1) out).bind (formatLoop args cs (nargs + 2))
      else formatLoop args cs (nargs + 1) out := by
  rw [conversionLoop]
  rcases isFlag_cases c with ⟨h, -⟩ | ⟨-, hl, hw⟩
  · rw [h] at hc
    cases hc
  by_cases hs : c = chr 's'
  · rw [if_pos hs, hs]
    rfl
  · unfold isFloat
    simp only [if_neg hs, if_neg hl, hw, if_true, decide_eq_true_eq]
    rfl

theorem conversionLoop_flags {flags : List Byte} (h : ∀ c ∈ flags, isFlag c = true)
    (cs : List Byte) :
    conversionLoop args (flags ++ cs) nargs out = conversionLoop args cs nargs out := by
  induction flags with
  | nil => rfl
  | cons c flags ih =>
    rw [List.cons_append, conversionLoop_flag (h c List.mem_cons_self)]
    exact ih fun c' hc => h c' (List.mem_cons_of_mem c hc)

/-- Inside a string, the loop ends only where there is a letter. -/
theorem exists_letter {r : List Word} (h : conversionLoop args (s ++ [0]) nargs out = some r) :
    ∃ flags letter s', s = flags ++ letter :: s' ∧ (∀ c ∈ flags, isFlag c = true) ∧
      isFlag letter = false := by
  induction s with
  | nil =>
    rw [List.nil_append, conversionLoop_flag (by decide), conversionLoop] at h
    cases h
  | cons c s ih =>
    cases hc : isFlag c with
    | false => exact ⟨[], c, s, rfl, by simp, hc⟩
    | true =>
      rw [List.cons_append, conversionLoop_flag hc] at h
      obtain ⟨flags, letter, s', rfl, hflags, hletter⟩ := ih h
      refine ⟨c :: flags, letter, s', rfl, fun c' hc' => ?_, hletter⟩
      rcases List.mem_cons.mp hc' with rfl | hc'
      · exact hc
      · exact hflags c' hc'

/-! ## The words of a format -/

/-- So many words one after the other. -/
def takeArguments (args : List Byte) : (words nargs : Nat) → List Word → Option (List Word)
  | 0, _, out => some out
  | words + 1, nargs, out =>
    (takeArgument args nargs out).bind (takeArguments args words (nargs + 1))

theorem takeArguments_add (m : Nat) : ∀ {nargs : Nat} {out : List Word},
    takeArguments args (m + n) nargs out =
      (takeArguments args m nargs out).bind (takeArguments args n (nargs + m)) := by
  induction m with
  | zero =>
    intro nargs out
    rw [Nat.zero_add]
    rfl
  | succ m ih =>
    intro nargs out
    rw [Nat.succ_add, takeArguments, takeArguments, Option.bind_assoc]
    congr 1
    funext out
    rw [ih, Nat.add_right_comm, Nat.add_assoc]

theorem takeArguments_one : takeArguments args 1 nargs = takeArgument args nargs := by
  funext out
  exact Option.bind_fun_some _

theorem takeArguments_two : takeArguments args 2 nargs out =
    (takeArgument args nargs out).bind (takeArgument args (nargs + 1)) := by
  rw [takeArguments, takeArguments_one]

/-- A piece takes its words, and the loop goes on behind it. -/
theorem formatLoop_piece (x : Piece) (rest : List Byte) (hnul : 0 ∉ x.text) :
    formatLoop args (x.text ++ rest) nargs out =
      (takeArguments args x.words nargs out).bind (formatLoop args rest (nargs + x.words)) := by
  cases x with
  | plain c h =>
    have hc : c ≠ 0 := fun he => hnul (he ▸ List.mem_cons_self)
    exact formatLoop_plain hc h rest
  | percent => exact formatLoop_percent rest
  | conversion flags letter hflags hfirst hletter =>
    have hloop : conversionLoop args (flags ++ [letter] ++ rest) nargs = fun out =>
        if isFloat letter then
          (takeArgument args (nargs + 1) out).bind (formatLoop args rest (nargs + 2))
        else formatLoop args rest (nargs + 1) out := by
      funext out
      rw [List.append_assoc, conversionLoop_flags hflags]
      exact conversionLoop_letter hletter rest
    obtain ⟨d, ds, hds, hd⟩ : ∃ d ds, flags ++ [letter] ++ rest = d :: ds ∧ d ≠ chr '%' := by
      cases flags with
      | nil =>
        refine ⟨letter, rest, rfl, ?_⟩
        rintro rfl
        exact absurd hletter (by decide)
      | cons d flags => exact ⟨d, flags ++ [letter] ++ rest, rfl, fun he => hfirst (he ▸ rfl)⟩
    have hstart : formatLoop args (chr '%' :: (flags ++ [letter] ++ rest)) nargs out =
        (takeArgument args nargs out).bind
          (conversionLoop args (flags ++ [letter] ++ rest) nargs) := by
      rw [hds]
      exact formatLoop_conversion hd ds
    rw [Piece.text, List.cons_append, hstart, hloop, Piece.words, width]
    cases isFloat letter with
    | false =>
      simp only [Bool.false_eq_true, if_false]
      rw [takeArguments_one]
    | true =>
      simp only [if_true]
      rw [takeArguments_two, Option.bind_assoc]

/-- The loop takes the words of the whole format, and stops at the NUL. -/
theorem formatLoop_pieces (pieces : List Piece) : ∀ {nargs : Nat} {out : List Word},
    0 ∉ pieces.flatMap Piece.text →
    formatLoop args (pieces.flatMap Piece.text ++ 0 :: junk) nargs out =
      takeArguments args (pieces.map Piece.words).sum nargs out := by
  induction pieces with
  | nil => exact fun _ => formatLoop_nul junk
  | cons x pieces ih =>
    intro nargs out h0
    rw [List.flatMap_cons, List.mem_append, not_or] at h0
    rw [List.flatMap_cons, List.append_assoc, formatLoop_piece x _ h0.1, List.map_cons,
      List.sum_cons, takeArguments_add]
    congr 1
    funext out
    exact ih h0.2

/-- Where the loop stays inside the string, a piece stands at the start of the string. -/
theorem exists_piece {c : Byte} {r : List Word}
    (h : formatLoop args (c :: s ++ [0]) nargs out = some r) :
    ∃ (x : Piece) (s' : List Byte), c :: s = x.text ++ s' := by
  by_cases hc : c = chr '%'
  swap
  · exact ⟨.plain c hc, s, rfl⟩
  subst hc
  obtain ⟨d, ds, hds⟩ : ∃ d ds, s ++ [0] = d :: ds := List.exists_cons_of_ne_nil (by simp)
  by_cases hd : d = chr '%'
  · subst hd
    cases s with
    | nil =>
      have hnul : (0 : Byte) = chr '%' := (List.cons.inj hds).1
      exact absurd hnul (by decide)
    | cons d' s =>
      obtain ⟨rfl, -⟩ := List.cons.inj hds
      exact ⟨.percent, s, rfl⟩
  · rw [List.cons_append, hds, formatLoop_conversion hd, ← hds] at h
    obtain ⟨out', -, hloop⟩ := Option.bind_eq_some_iff.mp h
    obtain ⟨flags, letter, s', rfl, hflags, hletter⟩ := exists_letter hloop
    have hfirst : flags.head? ≠ some (chr '%') := by
      intro hhead
      rw [List.eq_cons_of_mem_head? hhead] at hds
      exact hd (List.cons.inj hds).1.symm
    exact ⟨.conversion flags letter hflags hfirst hletter, s', by simp [Piece.text]⟩

/-- Where the loop stays inside the string, the string is a format. -/
theorem exists_pieces : ∀ (n : Nat) {s : List Byte} {nargs : Nat} {out r : List Word},
    s.length ≤ n → 0 ∉ s → formatLoop args (s ++ [0]) nargs out = some r →
    ∃ pieces : List Piece, pieces.flatMap Piece.text = s := by
  intro n
  induction n with
  | zero =>
    intro s _ _ _ hlen _ _
    exact ⟨[], (List.eq_nil_of_length_eq_zero (by omega)).symm⟩
  | succ n ih =>
    intro s nargs out r hlen h0 h
    cases s with
    | nil => exact ⟨[], rfl⟩
    | cons c s =>
      obtain ⟨x, s', hs⟩ := exists_piece h
      have hx : 0 < x.text.length := by cases x <;> exact Nat.succ_pos _
      rw [hs] at hlen h0 h ⊢
      rw [List.mem_append, not_or] at h0
      rw [List.length_append] at hlen
      rw [List.append_assoc, formatLoop_piece x _ h0.1] at h
      obtain ⟨out', -, h⟩ := Option.bind_eq_some_iff.mp h
      obtain ⟨pieces, hpieces⟩ := ih (by omega) h0.2 h
      exact ⟨x :: pieces, by rw [List.flatMap_cons, hpieces]⟩

/-! ## The arrays -/

theorem wordAt_isSome_iff (args : List Byte) (j : Nat) :
    (wordAt args j).isSome ↔ 4 * (j + 1) ≤ args.length := by
  have hlen : (args.drop (4 * j)).length = args.length - 4 * j := List.length_drop
  unfold wordAt
  rcases hdrop : args.drop (4 * j) with _ | ⟨b0, _ | ⟨b1, _ | ⟨b2, _ | ⟨b3, rest⟩⟩⟩⟩
  rotate_right
  · rw [hdrop] at hlen
    simp only [List.length_cons] at hlen
    exact iff_of_true rfl (by omega)
  all_goals
    rw [hdrop] at hlen
    simp only [List.length_cons, List.length_nil] at hlen
    exact iff_of_false Bool.false_ne_true (by omega)

/-- Of the two arrays, the source array ends first. -/
theorem takeArgument_some_iff (hargs : args.length = 4 * 10) (hout : out.length = 10)
    (nargs : Nat) :
    (∃ out', takeArgument args nargs out = some out') ↔ nargs + 1 ≤ 9 := by
  have hword := wordAt_isSome_iff args (nargs + 1)
  unfold takeArgument
  cases hw : wordAt args (nargs + 1) with
  | none =>
    rw [hw] at hword
    have hle : ¬ 4 * (nargs + 1 + 1) ≤ args.length := fun h => nomatch hword.mpr h
    exact iff_of_false (by rintro ⟨out', h⟩; cases h) (by omega)
  | some w =>
    rw [hw] at hword
    have hle := hword.mp rfl
    exact iff_of_true ⟨out.set nargs w, store_eq (by omega)⟩ (by omega)

theorem takeArgument_length {out' : List Word} (h : takeArgument args nargs out = some out') :
    out'.length = out.length := by
  unfold takeArgument at h
  obtain ⟨w, -, hstore⟩ := Option.bind_eq_some_iff.mp h
  unfold store at hstore
  split at hstore
  · obtain rfl := Option.some.inj hstore
    exact List.length_set
  · cases hstore

theorem takeArguments_some_iff (hargs : args.length = 4 * 10) (words : Nat) :
    ∀ (nargs : Nat) {out : List Word}, out.length = 10 →
      ((∃ out', takeArguments args words nargs out = some out') ↔
        words = 0 ∨ nargs + words ≤ 9) := by
  induction words with
  | zero => exact fun _ _ _ => iff_of_true ⟨_, rfl⟩ (.inl rfl)
  | succ words ih =>
    intro nargs out hout
    have hone := takeArgument_some_iff hargs hout nargs
    rw [takeArguments]
    constructor
    · rintro ⟨out', h⟩
      obtain ⟨out1, h1, h2⟩ := Option.bind_eq_some_iff.mp h
      have hfirst := hone.mp ⟨out1, h1⟩
      have hrest := (ih (nargs + 1) (by rw [takeArgument_length h1, hout])).mp ⟨out', h2⟩
      omega
    · intro hle
      obtain ⟨out1, h1⟩ := hone.mpr (by omega)
      obtain ⟨out', h2⟩ := (ih (nargs + 1) (by rw [takeArgument_length h1, hout])).mpr
        (by omega)
      exact ⟨out', by rw [h1]; exact h2⟩

/-! ## The format string -/

/-- The text at an address, cut behind its first 79 characters. -/
structure FormatText (mem : UserMemory) (p : Word) (s : List Byte) : Prop where
  nonzero : 0 ∉ s
  reads : Reads mem p s
  short : s.length ≤ 79
  ends : s.length < 79 → mem (place p s.length) = some 0

/-- The loop copies characters that are not NUL, and goes on behind them. -/
theorem copyLoop_string (bound fuel : Nat) : ∀ {s buf : List Byte} {k i : Nat}, 0 ∉ s →
    Reads mem (place p k) s → i + s.length < bound → bound ≤ buf.length →
    copyLoop mem p bound (fuel + s.length) k i buf =
      copyLoop mem p bound fuel (k + s.length) (i + s.length) (overlay buf i s) := by
  intro s
  induction s with
  | nil =>
    intro buf k i _ _ _ _
    rw [overlay_nil]
    rfl
  | cons v s ih =>
    intro buf k i h0 hr hlt hbuf
    rw [List.mem_cons, not_or] at h0
    rw [List.length_cons] at hlt ⊢
    have htail : Reads mem (place p (k + 1)) s := by
      rw [← place_add]
      exact hr.tail
    rw [← Nat.add_assoc, copyLoop_turn hr.head (by omega),
      if_pos ⟨by omega, Ne.symm h0.1⟩, ih h0.2 htail (by omega) (by simpa using hbuf),
      overlay_set (by omega)]
    congr 1 <;> omega

theorem append_set {t : List Byte} (ht : t ≠ []) : (s ++ t).set s.length 0 = s ++ 0 :: t.tail := by
  obtain ⟨v, t, rfl⟩ := List.exists_cons_of_ne_nil ht
  rw [List.set_append_right _ _ (Nat.le_refl s.length), Nat.sub_self]
  rfl

theorem copyByte_last (mem : UserMemory) (src : Word) {i : Nat} (hi : i < buf.length) :
    ∃ buf', copyByte mem src buf i = some buf' ∧ buf'.set i 0 = buf.set i 0 := by
  unfold copyByte
  cases mem src with
  | none => exact ⟨buf, rfl, rfl⟩
  | some v => exact ⟨buf.set i v, store_eq hi, List.set_set ..⟩

/-- After the copy the text stands in the array, with a NUL behind it. -/
theorem FormatText.copied (h : FormatText mem p s) {old : List Byte} (hold : old.length = 80) :
    ∃ n buf junk, copyLoop mem p 80 80 0 0 old = some (n, buf) ∧
      buf.set 79 0 = s ++ 0 :: junk := by
  have hshort := h.short
  have hreads : Reads mem (place p 0) s := by
    rw [place_zero]
    exact h.reads
  have hcopy := copyLoop_string 80 (80 - s.length) h.nonzero hreads
    (show 0 + s.length < 80 by omega) (show 80 ≤ old.length by omega)
  have hover : overlay old 0 s = s ++ old.drop s.length := by
    unfold overlay
    simp
  have hrest : old.drop s.length ≠ [] := by
    rw [ne_eq, List.drop_eq_nil_iff]
    omega
  rw [Nat.sub_add_cancel (by omega), hover, Nat.zero_add] at hcopy
  obtain ⟨fuel, hfuel⟩ : ∃ fuel, 80 - s.length = fuel + 1 := ⟨79 - s.length, by omega⟩
  rw [hcopy, hfuel]
  by_cases hlen : s.length < 79
  · refine ⟨s.length + 1, s ++ 0 :: (old.drop s.length).tail,
      ((old.drop s.length).tail).set (79 - s.length - 1) 0, ?_, ?_⟩
    · rw [copyLoop_turn (h.ends hlen) (by simp; omega), if_neg (by simp), append_set hrest]
    · rw [List.set_append_right _ _ (by omega)]
      obtain ⟨m, hm⟩ : ∃ m, 79 - s.length = m + 1 := ⟨78 - s.length, by omega⟩
      rw [hm]
      rfl
  · -- The last byte of the array is replaced, whatever the loop puts there.
    have h79 : s.length = 79 := by omega
    obtain ⟨buf, hbuf, hset⟩ := copyByte_last mem (place p s.length)
      (show s.length < (s ++ old.drop s.length).length by simp; omega)
    refine ⟨s.length + 1, buf, (old.drop s.length).tail, ?_, ?_⟩
    · rw [copyLoop, hbuf]
      simp [h79]
    · rw [← h79, hset, append_set hrest]

variable {pcb : PCB} {ram : Ram} {trapArgs : Word}

/-- The ten words at an address, where the array held `old` before. -/
def argWords (mem : UserMemory) (trapArgs : Word) (old : List Byte) : List Byte :=
  filled (userBytes mem trapArgs (4 * 10)) old

theorem argWords_length (mem : UserMemory) (trapArgs : Word) {old : List Byte}
    (hold : old.length = 4 * 10) : (argWords mem trapArgs old).length = 4 * 10 := by
  unfold argWords
  rw [filled_length (by rw [hold]; exact userBytes_length_le ..), hold]

/-- The loops of the trap end, where they are given the format string up to its NUL.
Then the trap hands over what they give. -/
def ScansInside (pcb : PCB) (a : PrintfArrays) (trapArgs : Word) (ram : Ram) : Prop :=
  ∃ x words, copyFormat pcb a trapArgs false ram = some x ∧
    formatLoop x.args (upToNul x.formatstr) 0 a.printfArgs = some words ∧
    TrapPrintfHandler pcb a trapArgs false ram = .ok ⟨x.formatstr, words.take 8, x.ram⟩

theorem FormatText.copyFormat (h : FormatText (userMemory pcb ram) p s) (a : PrintfArrays)
    (hp : wordAt (argWords (userMemory pcb ram) trapArgs a.args) 0 = some p) :
    ∃ junk, dlxos.copyFormat pcb a trapArgs false ram =
      some ⟨s ++ 0 :: junk, argWords (userMemory pcb ram) trapArgs a.args, ram⟩ := by
  obtain ⟨n, buf, junk, hloop, hbuf⟩ := h.copied a.formatstr_length
  refine ⟨junk, ?_⟩
  unfold argWords at hp ⊢
  unfold dlxos.copyFormat
  simp only [Bool.false_eq_true, if_false, hp, Option.bind_eq_bind, Option.bind_some, hloop, hbuf]
  rfl

theorem ScansInside.exists_pieces {a : PrintfArrays} (h : ScansInside pcb a trapArgs ram)
    (hp : wordAt (argWords (userMemory pcb ram) trapArgs a.args) 0 = some p)
    (ht : FormatText (userMemory pcb ram) p s) :
    ∃ pieces : List Piece, pieces.flatMap Piece.text = s ∧ (pieces.map Piece.words).sum ≤ 9 := by
  obtain ⟨junk, hcopy⟩ := ht.copyFormat a hp
  obtain ⟨x, words, hx, hscan, -⟩ := h
  rw [hcopy] at hx
  obtain rfl := Option.some.inj hx
  rw [upToNul_string ht.nonzero] at hscan
  obtain ⟨pieces, rfl⟩ := dlxos.exists_pieces s.length (Nat.le_refl _) ht.nonzero hscan
  rw [formatLoop_pieces pieces ht.nonzero] at hscan
  have := (takeArguments_some_iff (argWords_length _ _ a.args_length) _ 0
    a.printfArgs_length).mp ⟨words, hscan⟩
  exact ⟨pieces, rfl, by omega⟩

/-- The loops stay inside the string and the arrays just when each conversion of the
format has its letter, and they take nine words at most. -/
theorem printf_scan_iff (a : PrintfArrays)
    (hp : wordAt (argWords (userMemory pcb ram) trapArgs a.args) 0 = some p)
    (h : FormatText (userMemory pcb ram) p s) :
    ScansInside pcb a trapArgs ram ↔
      ∃ pieces : List Piece, pieces.flatMap Piece.text = s ∧ (pieces.map Piece.words).sum ≤ 9 := by
  refine ⟨fun hin => hin.exists_pieces hp h, ?_⟩
  rintro ⟨pieces, rfl, hwords⟩
  obtain ⟨junk, hcopy⟩ := h.copyFormat a hp
  have hargs := argWords_length (userMemory pcb ram) trapArgs a.args_length
  obtain ⟨words, htake⟩ := (takeArguments_some_iff hargs
    (pieces.map Piece.words).sum 0 a.printfArgs_length).mpr (by omega)
  have hscan : ∀ junk, formatLoop (argWords (userMemory pcb ram) trapArgs a.args)
      (pieces.flatMap Piece.text ++ 0 :: junk) 0 a.printfArgs = some words := fun junk =>
    (formatLoop_pieces pieces h.nonzero).trans htake
  refine ⟨_, words, hcopy, ?_, ?_⟩
  · rw [upToNul_string h.nonzero]
    exact hscan []
  · unfold TrapPrintfHandler
    rw [hcopy]
    simp only [inside, bind, Except.bind, hscan]
    rfl

/-! ## A process that prints -/

/-- Ten words at address 0, the first one with the address of the string behind them. -/
def printfWords : List Word := 40 :: List.replicate 9 0

def printfImage (s : List Byte) : List Byte := printfWords.flatMap wordBytes ++ (s ++ [0])

def blankPrintf : PrintfArrays where
  formatstr := blankArrays.pcbName
  args := List.replicate (4 * 10) 0
  printfArgs := List.replicate 10 0
  formatstr_length := blankArrays.pcbName_length
  args_length := List.length_replicate
  printfArgs_length := List.length_replicate

theorem printfImage_words :
    wordAt (argWords (userMemory onePage (imageRam (printfImage s))) 0 blankPrintf.args) 0 =
      some 40 := by
  have hpre : printfWords.flatMap wordBytes <+: (printfImage s).drop 0 := List.prefix_append _ _
  have hlen : (printfWords.flatMap wordBytes).length = 40 := by decide
  have hreads := image_reads hpre (by rw [hlen]; decide)
  exact wordAt_filled hreads (by decide) rfl

theorem printfImage_text (h0 : 0 ∉ s) (hs : s.length ≤ 79) :
    FormatText (userMemory onePage (imageRam (printfImage s))) 40 s := by
  have hdrop : (printfImage s).drop 40 = s ++ [0] := List.drop_left' (by decide)
  have hpre : s ++ [0] <+: (printfImage s).drop 40 := by rw [hdrop]
  have hreads := image_reads hpre (by simp [MEMORY_PAGE_SIZE]; omega)
  exact ⟨h0, hreads.append.1, hs, fun _ => hreads.append.2.head⟩

theorem print_number : ScansInside onePage blankPrintf 0 (imageRam (printfImage
    [chr 'n', chr '=', chr '%', chr 'd'])) :=
  (printf_scan_iff blankPrintf printfImage_words
    (printfImage_text (by decide) (by decide))).mpr
    ⟨[.plain (chr 'n') (by decide), .plain (chr '=') (by decide),
      .conversion [] (chr 'd') (by simp) (by simp) (by decide)], rfl, by decide⟩

/-- The format is a `%` alone. -/
theorem print_percent : ¬ ∀ (pcb : PCB) (ram : Ram) (trapArgs p : Word) (a : PrintfArrays)
    (s : List Byte), wordAt (argWords (userMemory pcb ram) trapArgs a.args) 0 = some p →
    FormatText (userMemory pcb ram) p s → ScansInside pcb a trapArgs ram := by
  intro hall
  have hwords := printfImage_words (s := [chr '%'])
  have htext := printfImage_text (s := [chr '%']) (by decide) (by decide)
  obtain ⟨pieces, hpieces, -⟩ :=
    (hall _ _ _ _ blankPrintf _ hwords htext).exists_pieces hwords htext
  cases pieces with
  | nil => cases hpieces
  | cons x pieces =>
    rw [List.flatMap_cons] at hpieces
    cases x with
    | plain c h => exact h (List.cons.inj hpieces).1
    | percent => cases (List.cons.inj hpieces).2
    | conversion flags letter =>
      have hlen := congrArg List.length hpieces
      simp [Piece.text] at hlen

end dlxos
