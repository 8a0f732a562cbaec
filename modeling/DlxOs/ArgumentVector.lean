-- The arguments of a new process, from the strings that its parent passes to the
-- vector at its stack pointer. `get_argument` takes offset 0, its answer for the
-- first string, for the end of the list as well, so it also ends at an empty string.
import DlxOs.ArgumentBuffers

namespace dlxos

open Function

variable {param : List Byte} {strings : List (List Byte)} {s : List Byte} {i j k n : Nat}
  {mem child : UserMemory} {p : Word} {dum : List Word}

/-! ## The list of strings -/

/-- The strings stand at the start of `param`, in its first 100 bytes. -/
structure Packs (param : List Byte) (strings : List (List Byte)) : Prop where
  length : 100 < param.length
  bytes : ∀ (i : Nat) v, (packed strings)[i]? = some v → param[i]? = some v
  fits : (packed strings).length ≤ 100
  ends : (packed strings).length < 100 → param[(packed strings).length]? = some 0
  texts : ∀ s ∈ strings, 0 ∉ s

/-- Where string `i` starts. -/
def offset (strings : List (List Byte)) (i : Nat) : Nat := (packed (strings.take i)).length

theorem packed_append (xs ys : List (List Byte)) : packed (xs ++ ys) = packed xs ++ packed ys :=
  List.flatMap_append

theorem packed_split (hs : strings[i]? = some s) :
    packed strings = packed (strings.take i) ++ ((s ++ [0]) ++ packed (strings.drop (i + 1))) := by
  obtain ⟨hi, rfl⟩ := List.getElem?_eq_some_iff.mp hs
  rw [← packed_cons, ← packed_append, ← List.drop_eq_getElem_cons hi, List.take_append_drop]

theorem offset_succ (hs : strings[i]? = some s) :
    offset strings (i + 1) = offset strings i + (s.length + 1) := by
  obtain ⟨hi, rfl⟩ := List.getElem?_eq_some_iff.mp hs
  unfold offset
  rw [List.take_succ_eq_append_getElem hi, packed_append, List.length_append, packed_length_cons]
  rfl

theorem offset_length (strings : List (List Byte)) :
    offset strings strings.length = (packed strings).length := by
  unfold offset
  rw [List.take_length]

theorem offset_le (strings : List (List Byte)) (i : Nat) :
    offset strings i ≤ (packed strings).length := by
  have h := packed_append (strings.take i) (strings.drop i)
  rw [List.take_append_drop] at h
  unfold offset
  rw [h, List.length_append]
  omega

theorem offset_pos (hi : 1 ≤ i) (hn : strings ≠ []) : 1 ≤ offset strings i := by
  obtain ⟨s, rest, rfl⟩ := List.exists_cons_of_ne_nil hn
  obtain ⟨i, rfl⟩ := Nat.exists_eq_add_of_le hi
  unfold offset
  rw [Nat.add_comm, List.take_succ_cons, packed_length_cons]
  omega

theorem length_le_packed (strings : List (List Byte)) :
    strings.length ≤ (packed strings).length := by
  induction strings with
  | nil => exact Nat.zero_le _
  | cons s strings ih =>
    rw [packed_length_cons, List.length_cons]
    omega

theorem Packs.string (h : Packs param strings) (hs : strings[i]? = some s) {t : Nat} {v : Byte}
    (hv : (s ++ [0])[t]? = some v) : param[offset strings i + t]? = some v := by
  have ht := (List.getElem?_eq_some_iff.mp hv).1
  refine h.bytes _ v ?_
  rw [packed_split hs]
  unfold offset
  rw [List.getElem?_append_right (by omega), Nat.add_sub_cancel_left, List.getElem?_append_left ht]
  exact hv

/-! ## The walk of `get_argument` -/

theorem skipArgument_string {str s : List Byte} : ∀ {left location : Nat}, 0 ∉ s →
    (∀ (t : Nat) v, (s ++ [0])[t]? = some v → str[location + t]? = some v) → s.length < left →
    skipArgument str left location = some (location + s.length + 1) := by
  induction s with
  | nil =>
    intro left location _ hbytes hlt
    obtain ⟨left, rfl⟩ := Nat.exists_eq_succ_of_ne_zero (Nat.ne_of_gt hlt)
    have h0 : str[location]? = some 0 := hbytes 0 0 rfl
    rw [skipArgument, h0]
    rfl
  | cons v s ih =>
    intro left location h0 hbytes hlt
    obtain ⟨left, rfl⟩ := Nat.exists_eq_succ_of_ne_zero (Nat.ne_of_gt (Nat.zero_lt_of_lt hlt))
    have hv : v ≠ 0 := fun he => h0 (by simp [he])
    have hget : str[location]? = some v := hbytes 0 v rfl
    have hrest : ∀ (t : Nat) w, (s ++ [0])[t]? = some w → str[location + 1 + t]? = some w := by
      intro t w hw
      rw [Nat.add_assoc, Nat.add_comm 1 t]
      exact hbytes (t + 1) w hw
    rw [List.length_cons] at hlt
    rw [skipArgument, hget]
    simp only [Option.bind_eq_bind, Option.bind_some, if_neg hv]
    rw [ih (fun hm => h0 (List.mem_cons_of_mem v hm)) hrest (by omega), List.length_cons]
    congr 1
    omega

theorem get_argument_next (h : Packs param strings) (hs : strings[i]? = some s) (hne : s ≠ []) :
    get_argument none ⟨param, offset strings i⟩ =
      some (offset strings i, ⟨param, offset strings (i + 1)⟩) := by
  obtain ⟨v, rest, rfl⟩ := List.exists_cons_of_ne_nil hne
  have h0 := h.texts _ (List.mem_of_getElem? hs)
  have hv : v ≠ 0 := fun he => h0 (by simp [he])
  have hget : param[offset strings i]? = some v := h.string hs (t := 0) rfl
  have hle := h.fits
  have hnext := offset_succ hs
  have hmax := offset_le strings (i + 1)
  rw [List.length_cons] at hnext
  have hskip := @skipArgument_string _ _ (100 - offset strings i) _ h0
    (fun t w hw => h.string hs hw) (by rw [List.length_cons]; omega)
  unfold get_argument
  simp only [hget, Option.bind_eq_bind, Option.bind_some]
  rw [if_neg (by simp only [hv, false_or]; omega), hskip, List.length_cons, hnext]
  rfl

theorem get_argument_stop (h : Packs param strings)
    (hstop : i = strings.length ∨ strings[i]? = some []) :
    get_argument none ⟨param, offset strings i⟩ = some (0, ⟨param, offset strings i⟩) := by
  have hend : (∃ v, param[offset strings i]? = some v) ∧
      (param[offset strings i]? = some 0 ∨ 99 ≤ offset strings i) := by
    rcases hstop with rfl | hs
    · rw [offset_length]
      have hle := h.fits
      refine ⟨⟨_, List.getElem?_eq_getElem (Nat.lt_of_le_of_lt hle h.length)⟩, ?_⟩
      by_cases hlt : (packed strings).length < 100
      · exact .inl (h.ends hlt)
      · exact .inr (by omega)
    · have hget : param[offset strings i]? = some 0 := h.string hs (t := 0) rfl
      exact ⟨⟨0, hget⟩, .inl hget⟩
  obtain ⟨⟨v, hv⟩, hz⟩ := hend
  rw [hv] at hz
  unfold get_argument
  simp only [hv, Option.bind_eq_bind, Option.bind_some]
  rw [if_pos (hz.imp Option.some.inj id)]
  rfl

/-- The words from `dum[2 + i]` on point to the strings `i` up to `k`. -/
def Points (strings : List (List Byte)) (dum : List Word) (i k : Nat) : Prop :=
  ∀ j, i ≤ j → j < k → dum[2 + j]? = some (BitVec.ofNat 32 (ARG_BASE + offset strings j))

/-- The loop goes from string `i` to string `k`, where `get_argument` ends. -/
theorem vectorLoop_walk (h : Packs param strings) (hne : strings ≠ [])
    (hk : k = strings.length ∨ strings[k]? = some []) (hmax : k ≤ MAX_ARGS) (fuel : Nat) :
    ∀ {i : Nat} {dum : List Word}, 1 ≤ i → i ≤ k →
    (∀ j, i ≤ j → j < k → ∃ s, strings[j]? = some s ∧ s ≠ []) → k - i < fuel →
    dum.length = MAX_ARGS + 8 →
    ∃ dum', vectorLoop fuel (2 + i) ⟨param, offset strings i⟩ dum = some (2 + k, dum') ∧
      dum'.length = MAX_ARGS + 8 ∧ (∀ j < 2 + i, dum'[j]? = dum[j]?) ∧ Points strings dum' i k := by
  induction fuel with
  | zero => exact fun _ _ _ hfuel => absurd hfuel (Nat.not_lt_zero _)
  | succ fuel ih =>
    intro i dum hi hik hfull hfuel hdum
    have hin : 2 + i < dum.length := by omega
    by_cases he : i = k
    · subst he
      refine ⟨dum.set (2 + i) (BitVec.ofNat 32 (ARG_BASE + 0)), ?_, ?_, fun j hj => ?_,
        fun j h1 h2 => by omega⟩
      · rw [vectorLoop, get_argument_stop h hk]
        simp only [Option.bind_eq_bind, Option.bind_some, store_eq hin, if_true]
        rfl
      · rw [List.length_set, hdum]
      · rw [List.getElem?_set_ne (by omega)]
    · obtain ⟨s, hs, hsne⟩ := hfull i (Nat.le_refl i) (by omega)
      have hpos := offset_pos hi hne
      have hlen : (dum.set (2 + i) (BitVec.ofNat 32 (ARG_BASE + offset strings i))).length =
          MAX_ARGS + 8 := by rw [List.length_set, hdum]
      obtain ⟨dum', hrun, hlen', hframe, hpoints⟩ := ih (i := i + 1) (by omega) (by omega)
        (fun j h1 h2 => hfull j (by omega) h2) (by omega) hlen
      refine ⟨dum', ?_, hlen', fun j hj => ?_, fun j h1 h2 => ?_⟩
      · rw [vectorLoop, get_argument_next h hs hsne]
        simp only [Option.bind_eq_bind, Option.bind_some, store_eq hin,
          if_neg (Nat.ne_of_gt hpos)]
        exact hrun
      · rw [hframe j (by omega), List.getElem?_set_ne (by omega)]
      · by_cases hj : j = i
        · subst hj
          rw [hframe _ (by omega), List.getElem?_set_self (by omega)]
        · exact hpoints j (by omega) h2

/-- How many strings `get_argument` finds. -/
def found : List (List Byte) → Nat
  | [] => 0
  | s :: rest => if s = [] then 1 else 1 + rest.findIdx (· = [])

theorem found_cons (s : List Byte) (rest : List (List Byte)) :
    found (s :: rest) = if s = [] then 1 else 1 + rest.findIdx (· = []) := rfl

theorem found_le (strings : List (List Byte)) : found strings ≤ strings.length := by
  cases strings with
  | nil => exact Nat.le_refl 0
  | cons s rest =>
    have := @List.findIdx_le_length _ (fun x => decide (x = [])) rest
    rw [found_cons, List.length_cons]
    split <;> omega

/-- All strings are found, when there is one or none of them is empty. -/
theorem found_eq_iff (hn : strings ≠ []) :
    found strings = strings.length ↔ strings.length = 1 ∨ ∀ s ∈ strings, s ≠ [] := by
  obtain ⟨s, rest, rfl⟩ := List.exists_cons_of_ne_nil hn
  rw [found_cons]
  by_cases hs : s = []
  · rw [if_pos hs]
    constructor
    · exact fun h => .inl h.symm
    · rintro (h | h)
      · exact h.symm
      · exact absurd hs (h s List.mem_cons_self)
  · rw [if_neg hs, List.length_cons, Nat.add_comm 1, Nat.add_right_cancel_iff,
      List.findIdx_eq_length]
    simp only [decide_eq_false_iff_not, List.mem_cons, forall_eq_or_imp]
    constructor
    · exact fun h => .inr ⟨hs, h⟩
    · rintro (h | ⟨-, h⟩)
      · have hnil : rest = [] := List.eq_nil_of_length_eq_zero (by omega)
        simp [hnil]
      · exact h

/-- After the found strings comes the end of the list or an empty string. -/
theorem found_stops {s : List Byte} (rest : List (List Byte)) (hs : s ≠ []) :
    found (s :: rest) = (s :: rest).length ∨ (s :: rest)[found (s :: rest)]? = some [] := by
  rw [found_cons, if_neg hs, Nat.add_comm, List.length_cons, List.getElem?_cons_succ]
  rcases Nat.lt_or_ge (rest.findIdx (· = [])) rest.length with hlt | hge
  · right
    rw [List.getElem?_eq_getElem hlt]
    have := List.findIdx_getElem (w := hlt)
    simpa using this
  · left
    have := @List.findIdx_le_length _ (fun x => decide (x = [])) rest
    omega

/-- The found strings after the first are not empty. -/
theorem found_full {s : List Byte} (rest : List (List Byte)) (hs : s ≠ []) {j : Nat} (h1 : 1 ≤ j)
    (h2 : j < found (s :: rest)) : ∃ x, (s :: rest)[j]? = some x ∧ x ≠ [] := by
  obtain ⟨j, rfl⟩ := Nat.exists_eq_add_of_le' h1
  rw [found_cons, if_neg hs] at h2
  have hj : j < rest.findIdx (· = []) := by omega
  have hjlen : j < rest.length := Nat.lt_of_lt_of_le hj List.findIdx_le_length
  refine ⟨rest[j], ?_, ?_⟩
  · rw [List.getElem?_cons_succ, List.getElem?_eq_getElem hjlen]
  · have := List.not_of_lt_findIdx hj
    simpa using this

/-- The array that is copied to the new process. -/
theorem vector_words (h : Packs param strings) (hne : strings ≠ [])
    (hdum : dum.length = MAX_ARGS + 8) :
    ∃ st dum', get_argument (some param) ⟨[], 0⟩ = some (0, st) ∧
      vectorLoop (100 + 1) 3 st (dum.set 2 (BitVec.ofNat 32 (ARG_BASE + 0))) =
        some (2 + found strings, dum') ∧
      dum'.length = MAX_ARGS + 8 ∧ Points strings dum' 0 (found strings) := by
  obtain ⟨s, rest, rfl⟩ := List.exists_cons_of_ne_nil hne
  have hlen : (dum.set 2 (BitVec.ofNat 32 (ARG_BASE + 0))).length = MAX_ARGS + 8 := by
    rw [List.length_set, hdum]
  have hset : (dum.set 2 (BitVec.ofNat 32 (ARG_BASE + 0)))[2]? =
      some (BitVec.ofNat 32 (ARG_BASE + 0)) := by
    rw [List.getElem?_set_self (by rw [hdum]; decide)]
  by_cases hs : s = []
  · -- the iterator stays at the first string
    subst hs
    have hstop : get_argument none ⟨param, 0⟩ = some (0, ⟨param, 0⟩) :=
      get_argument_stop (i := 0) h (.inr rfl)
    refine ⟨⟨param, 0⟩, (dum.set 2 (BitVec.ofNat 32 (ARG_BASE + 0))).set 3
      (BitVec.ofNat 32 (ARG_BASE + 0)), hstop, ?_, ?_, fun j _ hj => ?_⟩
    · rw [vectorLoop, hstop]
      simp only [Option.bind_eq_bind, Option.bind_some,
        store_eq (show 3 < (dum.set 2 (BitVec.ofNat 32 (ARG_BASE + 0))).length by
          rw [hlen]; decide)]
      rfl
    · rw [List.length_set, hlen]
    · obtain rfl : j = 0 := by
        rw [found_cons, if_pos rfl] at hj
        omega
      rw [List.getElem?_set_ne (by omega)]
      exact hset
  · have hfound : found (s :: rest) = 1 + rest.findIdx (· = []) := if_neg hs
    have hle := found_le (s :: rest)
    have hall := length_le_packed (s :: rest)
    have hfits := h.fits
    have hmax : found (s :: rest) ≤ MAX_ARGS := by
      simp only [MAX_ARGS]
      omega
    have hnext := get_argument_next (i := 0) h rfl hs
    obtain ⟨dum', hrun, hlen', hframe, hpoints⟩ := vectorLoop_walk h hne (found_stops rest hs)
      hmax (100 + 1) (i := 1) (Nat.le_refl 1) (by omega) (fun _ => found_full rest hs) (by omega)
      hlen
    refine ⟨_, dum', hnext, hrun, hlen', fun j _ hj => ?_⟩
    cases j with
    | zero =>
      rw [hframe 2 (by omega)]
      exact hset
    | succ j => exact hpoints (j + 1) (by omega) hj

/-! ## The memory of the new process -/

theorem ofNat_sub_ofNat {a b : Nat} (h : b ≤ a) :
    BitVec.ofNat 32 a - BitVec.ofNat 32 b = BitVec.ofNat 32 (a - b) := by
  apply BitVec.eq_of_toNat_eq
  simp only [BitVec.toNat_sub, BitVec.toNat_ofNat]
  omega

/-- The words of the vector: the number of strings, the address of the pointers, and
the pointers. -/
structure Words (strings : List (List Byte)) (n : Nat) (ws : List Word) : Prop where
  length : ws.length = n + 2
  count : ws[0]? = some (BitVec.ofNat 32 n)
  pointers : ws[1]? = some (BitVec.ofNat 32 (ARG_BASE - 4 * n))
  points : ∀ j < n, ws[2 + j]? = some (BitVec.ofNat 32 (ARG_BASE + offset strings j))

/-- The stack pointer of a process with `n` arguments. -/
def stackPointer (n : Nat) : Word := BitVec.ofNat 32 (ARG_BASE - 4 * (n + 2))

theorem layArguments_eq (h : Packs param strings) (hne : strings ≠ [])
    (hdum : dum.length = MAX_ARGS + 8) (child : UserMemory) :
    ∃ ws, Words strings (found strings) ws ∧ layArguments param dum child =
      some (stackPointer (found strings),
        putBytes (putBytes child (BitVec.ofNat 32 ARG_BASE) (param.take (SIZE_ARG_BUFF - 32)))
          (stackPointer (found strings)) (ws.flatMap wordBytes)) := by
  obtain ⟨st, dum1, hfirst, hloop, hlen1, hpoints⟩ := vector_words h hne hdum
  have hsmall : found strings ≤ 100 :=
    Nat.le_trans (found_le strings) (Nat.le_trans (length_le_packed strings) h.fits)
  obtain ⟨n, hn⟩ : ∃ n, n = found strings := ⟨_, rfl⟩
  rw [← hn] at hloop hpoints hsmall ⊢
  obtain ⟨dum2, hdum2⟩ : ∃ dum2, dum2 = (dum1.set 0 (BitVec.ofNat 32 n)).set 1
      (BitVec.ofNat 32 (ARG_BASE - n * 4)) := ⟨_, rfl⟩
  have hlen2 : dum2.length = MAX_ARGS + 8 := by
    rw [hdum2, List.length_set, List.length_set, hlen1]
  have hbound : n + 2 ≤ dum2.length := by
    rw [hlen2]
    simp only [MAX_ARGS]
    omega
  refine ⟨dum2.take (2 + n), ⟨?_, ?_, ?_, fun j hj => ?_⟩, ?_⟩
  · rw [List.length_take]
    omega
  · rw [List.getElem?_take_of_lt (by omega), hdum2, List.getElem?_set_ne (by omega),
      List.getElem?_set_self (by rw [hlen1]; decide)]
  · rw [List.getElem?_take_of_lt (by omega), hdum2,
      List.getElem?_set_self (by rw [List.length_set, hlen1]; decide), Nat.mul_comm n 4]
  · rw [List.getElem?_take_of_lt (by omega), hdum2, List.getElem?_set_ne (by omega),
      List.getElem?_set_ne (by omega)]
    exact hpoints j (Nat.zero_le j) hj
  · have hbase : 4 * (n + 2) ≤ ARG_BASE := by
      simp only [ARG_BASE, MEMORY_PAGE_SIZE, SIZE_ARG_BUFF]
      omega
    have hsub : BitVec.ofNat 32 ARG_BASE - BitVec.ofNat 32 ((2 + n) * 4) = stackPointer n := by
      rw [show (2 + n) * 4 = 4 * (n + 2) by omega]
      exact ofNat_sub_ofNat hbase
    have hsub' : BitVec.ofNat 32 ARG_BASE - BitVec.ofNat 32 (4 * (2 + n)) = stackPointer n := by
      rw [show 4 * (2 + n) = 4 * (n + 2) by omega]
      exact ofNat_sub_ofNat hbase
    have hstore : store dum 2 (BitVec.ofNat 32 (ARG_BASE + 0)) =
        some (dum.set 2 (BitVec.ofNat 32 (ARG_BASE + 0))) := store_eq (by rw [hdum]; decide)
    have hstore1 : store dum1 0 (BitVec.ofNat 32 n) = some (dum1.set 0 (BitVec.ofNat 32 n)) :=
      store_eq (by rw [hlen1]; decide)
    have hstore2 : store (dum1.set 0 (BitVec.ofNat 32 n)) 1 (BitVec.ofNat 32 (ARG_BASE - n * 4)) =
        some dum2 := by
      rw [hdum2]
      exact store_eq (by rw [List.length_set, hlen1]; decide)
    unfold layArguments
    simp only [hfirst, Option.bind_eq_bind, Option.bind_some, hstore, hloop,
      show 2 + n - 2 = n by omega, hstore1, hstore2, hsub, hsub']
    rfl

/-- The new process finds its arguments at its stack pointer. -/
structure Starts (strings : List (List Byte)) (r29 : Word) (mem : UserMemory) : Prop where
  count : Reads mem r29 (wordBytes (BitVec.ofNat 32 strings.length))
  vector : ∃ v, Reads mem (r29 + 4) (wordBytes v) ∧
    v.toNat + 4 * strings.length ≤ MEMORY_PAGE_SIZE ∧
    ∀ i s, strings[i]? = some s →
      ∃ p, Reads mem (place v (4 * i)) (wordBytes p) ∧ Reads mem p (s ++ [0])

theorem putBytes_isSome {addr : Word} (bytes : List Byte) : ∀ {mem : UserMemory} {dst : Word},
    (mem addr).isSome → (putBytes mem dst bytes addr).isSome := by
  induction bytes with
  | nil => exact fun h => h
  | cons v bytes ih =>
    intro mem dst h
    rw [putBytes]
    rcases hd : mem dst with _ | w
    · exact h
    · refine ih ?_
      by_cases ha : addr = dst
      · rw [ha, update_self]
        rfl
      · rw [update_of_ne ha]
        exact h

theorem Reads.word {ws : List Word} {w : Word} (h : Reads mem p (ws.flatMap wordBytes))
    (hw : ws[j]? = some w) : Reads mem (place p (4 * j)) (wordBytes w) := by
  intro i v hv
  rw [place_add]
  exact h _ v (flatMap_wordBytes_getElem? ws hw hv)

theorem place_four (a : Word) : place a 4 = a + 4 := rfl

/-- The one page of a new process. -/
def OnePage (child : UserMemory) : Prop := ∀ a : Word, a.toNat < MEMORY_PAGE_SIZE → (child a).isSome

theorem place_ofNat (a i : Nat) : place (BitVec.ofNat 32 a) i = BitVec.ofNat 32 (a + i) := by
  unfold place
  rw [BitVec.ofNat_add]

theorem ofNat_toNat {a : Nat} (h : a ≤ MEMORY_PAGE_SIZE) : (BitVec.ofNat 32 a).toNat = a := by
  simp only [MEMORY_PAGE_SIZE] at h
  rw [BitVec.toNat_ofNat]
  omega

/-- What the new process finds in its page: the words below the strings, and the
strings. -/
theorem start_memory {ws : List Word} (hw : Words strings n ws) (h : Packs param strings)
    (hparam : param.length = SIZE_ARG_BUFF) (hn : n ≤ 100) (hchild : OnePage child)
    (hmem : mem = putBytes (putBytes child (BitVec.ofNat 32 ARG_BASE)
      (param.take (SIZE_ARG_BUFF - 32))) (stackPointer n) (ws.flatMap wordBytes)) :
    Reads mem (stackPointer n) (ws.flatMap wordBytes) ∧
      ∀ i s, strings[i]? = some s →
        Reads mem (BitVec.ofNat 32 (ARG_BASE + offset strings i)) (s ++ [0]) := by
  have hlen : (ws.flatMap wordBytes).length = 4 * (n + 2) := by
    rw [flatMap_wordBytes_length, hw.length]
  have htake : (param.take (SIZE_ARG_BUFF - 32)).length = SIZE_ARG_BUFF - 32 := by
    rw [List.length_take, hparam]
    rfl
  constructor
  · rw [hmem]
    refine putBytes_reads _ (by rw [hlen]; omega) fun i hi => putBytes_isSome _ (hchild _ ?_)
    rw [hlen] at hi
    unfold stackPointer
    rw [place_ofNat, ofNat_toNat]
    · simp only [ARG_BASE, MEMORY_PAGE_SIZE, SIZE_ARG_BUFF]
      omega
    · simp only [ARG_BASE, MEMORY_PAGE_SIZE, SIZE_ARG_BUFF]
      omega
  · intro i s hs t v hv
    have ht := (List.getElem?_eq_some_iff.mp hv).1
    rw [List.length_append, List.length_singleton] at ht
    have hnext := offset_succ hs
    have hend := offset_le strings (i + 1)
    have hfits := h.fits
    have hfirst : Reads (putBytes child (BitVec.ofNat 32 ARG_BASE)
        (param.take (SIZE_ARG_BUFF - 32))) (BitVec.ofNat 32 ARG_BASE)
        (param.take (SIZE_ARG_BUFF - 32)) := by
      refine putBytes_reads _ (by rw [htake]; decide) fun j hj => hchild _ ?_
      rw [htake] at hj
      rw [place_ofNat, ofNat_toNat]
      · simp only [ARG_BASE, MEMORY_PAGE_SIZE, SIZE_ARG_BUFF] at hj ⊢
        omega
      · simp only [ARG_BASE, MEMORY_PAGE_SIZE, SIZE_ARG_BUFF] at hj ⊢
        omega
    have hget : (param.take (SIZE_ARG_BUFF - 32))[offset strings i + t]? = some v := by
      rw [List.getElem?_take_of_lt (by simp only [SIZE_ARG_BUFF]; omega)]
      exact h.string hs hv
    have hread := hfirst _ v hget
    rw [place_ofNat] at hread ⊢
    rw [hmem, Nat.add_assoc, putBytes_frame, hread]
    intro j hj he
    rw [hlen] at hj
    unfold stackPointer at he
    have hnat := congrArg BitVec.toNat he
    rw [place_ofNat, ofNat_toNat, ofNat_toNat] at hnat
    all_goals simp only [ARG_BASE, MEMORY_PAGE_SIZE, SIZE_ARG_BUFF] at *
    all_goals omega

theorem Reads.word_unique {w w' : Word} (h : Reads mem p (wordBytes w))
    (h' : Reads mem p (wordBytes w')) : w = w' := by
  have hbyte : ∀ (i : Nat) v, (wordBytes w)[i]? = some v → (wordBytes w')[i]? = some v := by
    intro i v hv
    have hi : i < (wordBytes w').length := (List.getElem?_eq_some_iff.mp hv).1
    have hget := List.getElem?_eq_getElem hi
    have heq := (h i v hv).symm.trans (h' i _ hget)
    rw [hget, ← heq]
  have heq : wordBytes w = wordBytes w' := by
    refine List.ext_getElem? fun i => ?_
    rcases hv : (wordBytes w)[i]? with _ | v
    · exact (List.getElem?_eq_none (by simpa using hv)).symm
    · exact (hbyte i v hv).symm
  have h1 := @wordAt_eq 0 (wordBytes w) w fun i v hv => by simpa using hv
  have h2 := @wordAt_eq 0 (wordBytes w) w' fun i v hv => by
    rw [heq]
    simpa using hv
  exact Option.some.inj (h1.symm.trans h2)

/-- The process starts with its arguments just when all of them were found. -/
theorem starts_iff {ws : List Word} (hw : Words strings n ws) (hn : n ≤ 100)
    (hlen : strings.length ≤ 100) (hwords : Reads mem (stackPointer n) (ws.flatMap wordBytes))
    (htexts : ∀ i s, strings[i]? = some s →
      Reads mem (BitVec.ofNat 32 (ARG_BASE + offset strings i)) (s ++ [0])) :
    Starts strings (stackPointer n) mem ↔ n = strings.length := by
  have hcount : Reads mem (stackPointer n) (wordBytes (BitVec.ofNat 32 n)) := by
    have := hwords.word hw.count
    rwa [Nat.mul_zero, place_zero] at this
  constructor
  · intro h
    have hsame := congrArg BitVec.toNat (hcount.word_unique h.count)
    simp only [BitVec.toNat_ofNat] at hsame
    omega
  · rintro rfl
    have hbase : 4 * (strings.length + 2) ≤ ARG_BASE := by
      simp only [ARG_BASE, MEMORY_PAGE_SIZE, SIZE_ARG_BUFF]
      omega
    have hvector : Reads mem (stackPointer strings.length + 4)
        (wordBytes (BitVec.ofNat 32 (ARG_BASE - 4 * strings.length))) := by
      have := hwords.word hw.pointers
      rwa [Nat.mul_one, place_four] at this
    refine ⟨hcount, _, hvector, ?_, fun i s hs => ⟨_, ?_, htexts i s hs⟩⟩
    · have hpage : ARG_BASE ≤ MEMORY_PAGE_SIZE := Nat.sub_le _ _
      rw [ofNat_toNat (by omega)]
      omega
    · have hi := (List.getElem?_eq_some_iff.mp hs).1
      have hword := hwords.word (hw.points i hi)
      unfold stackPointer at hword
      rw [place_ofNat] at hword ⊢
      rwa [show ARG_BASE - 4 * (strings.length + 2) + 4 * (2 + i) =
        ARG_BASE - 4 * strings.length + 4 * i by omega] at hword

/-! ## From the parent to the new process -/

variable {pcb : PCB} {ram : Ram} {a : Arrays} {trapArgs : Word} {ps : List Word}

theorem zeroed_getElem? (a : Arrays) (hi : i < 100) : (zeroed a.allargs)[i]? = some 0 := by
  unfold zeroed
  rw [List.getElem?_append_left (by simpa using hi), List.getElem?_replicate, if_pos hi]

/-- What the handler leaves in `allargs`. -/
theorem Packs.handed (hfits : (packed strings).length ≤ 100) (htexts : ∀ s ∈ strings, 0 ∉ s)
    (a : Arrays) :
    Packs ((overlay (zeroed a.allargs) 0 (packed strings)).set (SIZE_ARG_BUFF - 1) 0) strings := by
  have hlen : (overlay (zeroed a.allargs) 0 (packed strings)).length = SIZE_ARG_BUFF := by
    rw [overlay_length (by rw [zeroed_length]; simp only [SIZE_ARG_BUFF]; omega), zeroed_length]
  have hover : overlay (zeroed a.allargs) 0 (packed strings) =
      packed strings ++ (zeroed a.allargs).drop (packed strings).length := by
    simp [overlay]
  refine ⟨by rw [List.length_set, hlen]; decide, fun i v hv => ?_, hfits, fun hlt => ?_, htexts⟩
  · have hi := (List.getElem?_eq_some_iff.mp hv).1
    rw [List.getElem?_set_ne (by simp only [SIZE_ARG_BUFF]; omega), hover,
      List.getElem?_append_left hi]
    exact hv
  · rw [List.getElem?_set_ne (by simp only [SIZE_ARG_BUFF]; omega), hover,
      List.getElem?_append_right (Nat.le_refl _), Nat.sub_self, List.getElem?_drop, Nat.add_zero]
    exact zeroed_getElem? a hlt

theorem ArgVector.nonzero (h : ArgVector mem trapArgs ps strings) : ∀ s ∈ strings, 0 ∉ s := by
  have key : ∀ {ps : List Word} {strings : List (List Byte)},
      List.Forall₂ (fun p s => 0 ∉ s ∧ Reads mem p (s ++ [0])) ps strings →
      ∀ s ∈ strings, 0 ∉ s := by
    intro ps strings h
    induction h with
    | nil => exact fun s hs => nomatch hs
    | cons hp _ ih =>
      intro s hs
      rcases List.mem_cons.mp hs with rfl | hs
      · exact hp.1
      · exact ih s hs
  exact key h.texts

/-- A list that fits is handed over whole. -/
theorem ArgVector.userHandler (h : ArgVector (userMemory pcb ram) trapArgs ps strings)
    (hmax : strings.length ≤ 11) (hfits : (packed strings).length ≤ 100) (a : Arrays) :
    ∃ rest, TrapProcessCreateHandler pcb a trapArgs false ram =
      .ok ⟨(textAt (userMemory pcb ram) (namePointer ps)).take 99 ++ 0 :: rest,
        (overlay (zeroed a.allargs) 0 (packed strings)).set (SIZE_ARG_BUFF - 1) 0, ram⟩ := by
  obtain ⟨name, rest, hname, hrun⟩ := h.handler a
  have hall : strings.take 11 = strings := List.take_of_length_le hmax
  have hargs := (h.allargs (a := a)).2.2
  rw [hall] at hargs
  rw [hargs (Nat.le_trans hfits (by decide)), hname] at hrun
  exact ⟨rest, hrun⟩

/-- Its first string is the name. -/
theorem ArgVector.handed (h : ArgVector (userMemory pcb ram) trapArgs ps strings)
    (hne : strings ≠ []) (hmax : strings.length ≤ 11) (hfits : (packed strings).length ≤ 100)
    (a : Arrays) : ∃ name rest, name = strings.head hne ++ 0 :: rest ∧
      TrapProcessCreateHandler pcb a trapArgs false ram =
        .ok ⟨name, (overlay (zeroed a.allargs) 0 (packed strings)).set (SIZE_ARG_BUFF - 1) 0,
          ram⟩ := by
  obtain ⟨rest, hrun⟩ := h.userHandler hmax hfits a
  refine ⟨_, rest, ?_, hrun⟩
  obtain ⟨s, ss, rfl⟩ := List.exists_cons_of_ne_nil hne
  rw [packed_length_cons] at hfits
  rw [h.text.2 s ss rfl, List.take_of_length_le (l := s) (by omega),
    List.take_of_length_le (by omega)]
  rfl

theorem created_starts_iff (h : ArgVector (userMemory pcb ram) trapArgs ps strings)
    (hne : strings ≠ []) (hmax : strings.length ≤ 11) (hfits : (packed strings).length ≤ 100)
    (a : Arrays) (hchild : OnePage child) :
    ∃ handed rest r29 mem, TrapProcessCreateHandler pcb a trapArgs false ram = .ok handed ∧
      handed.name = strings.head hne ++ 0 :: rest ∧
      layArguments handed.allargs a.dum child = some (r29, mem) ∧
      (Starts strings r29 mem ↔ found strings = strings.length) := by
  obtain ⟨name, rest, hname, hrun⟩ := h.handed hne hmax hfits a
  have hpacks := Packs.handed hfits h.nonzero a
  obtain ⟨ws, hw, hlay⟩ := layArguments_eq hpacks hne a.dum_length child
  have hfound := found_le strings
  have hparam : ((overlay (zeroed a.allargs) 0 (packed strings)).set (SIZE_ARG_BUFF - 1) 0).length =
      SIZE_ARG_BUFF := by
    rw [List.length_set, overlay_length, zeroed_length]
    rw [zeroed_length]
    simp only [SIZE_ARG_BUFF]
    omega
  obtain ⟨hwords, htexts⟩ := start_memory hw hpacks hparam (by omega) hchild rfl
  exact ⟨_, rest, _, _, hrun, hname, hlay, starts_iff hw (by omega) (by omega) hwords htexts⟩

/-- A process that is created with a list of strings starts with these strings just
when there is one, or none of them is empty. -/
theorem argument_round_trip_iff (h : ArgVector (userMemory pcb ram) trapArgs ps strings)
    (hne : strings ≠ []) (hmax : strings.length ≤ 11) (hfits : (packed strings).length ≤ 100)
    (a : Arrays) (hchild : OnePage child) :
    ∃ handed rest r29 mem, TrapProcessCreateHandler pcb a trapArgs false ram = .ok handed ∧
      handed.name = strings.head hne ++ 0 :: rest ∧
      layArguments handed.allargs a.dum child = some (r29, mem) ∧
      (Starts strings r29 mem ↔ strings.length = 1 ∨ ∀ s ∈ strings, s ≠ []) := by
  rw [← found_eq_iff hne]
  exact created_starts_iff h hne hmax hfits a hchild

/-- The vector of two strings, at address 0. The strings follow it. -/
def twoStrings (s t : List Byte) : List Byte :=
  [12, BitVec.ofNat 32 (13 + s.length), 0].flatMap wordBytes ++ packed [s, t]

theorem twoStrings_vector {s t : List Byte} (hs : 0 ∉ s) (ht : 0 ∉ t)
    (hlen : s.length + t.length < 1000) :
    ArgVector (userMemory onePage (imageRam (twoStrings s t))) 0
      [12, BitVec.ofNat 32 (13 + s.length)] [s, t] := by
  have hwords : ([12, BitVec.ofNat 32 (13 + s.length), 0] : List Word).flatMap wordBytes <+:
      (twoStrings s t).drop 0 := List.prefix_append _ _
  have hpacked : (twoStrings s t).drop 12 = (s ++ [0]) ++ ((t ++ [0]) ++ packed []) := rfl
  have hfirst : s ++ [0] <+: (twoStrings s t).drop 12 := by
    rw [hpacked]
    exact List.prefix_append _ _
  have hsecond : t ++ [0] <+: (twoStrings s t).drop (13 + s.length) := by
    have hdrop : (twoStrings s t).drop (13 + s.length) =
        ((twoStrings s t).drop 12).drop (s ++ [0]).length := by
      rw [List.drop_drop, List.length_append, List.length_singleton]
      congr 1
      omega
    rw [hdrop, hpacked, List.drop_left]
    exact List.prefix_append _ _
  refine ⟨?_, fun p hp => ?_, .cons ⟨hs, ?_⟩ (.cons ⟨ht, ?_⟩ .nil), fun h => nomatch h⟩
  · refine image_reads hwords ?_
    rw [flatMap_wordBytes_length]
    simp [MEMORY_PAGE_SIZE]
  · rcases List.mem_cons.mp hp with rfl | hp
    · simp
    · rw [List.mem_singleton] at hp
      intro he
      have hnat := congrArg BitVec.toNat (hp.symm.trans he)
      rw [ofNat_toNat (by simp only [MEMORY_PAGE_SIZE]; omega)] at hnat
      simp at hnat
  · refine image_reads hfirst ?_
    rw [List.length_append, List.length_singleton]
    simp only [MEMORY_PAGE_SIZE]
    omega
  · refine image_reads hsecond ?_
    rw [List.length_append, List.length_singleton]
    simp only [MEMORY_PAGE_SIZE]
    omega

def freshPage : UserMemory := fun a => if a.toNat < MEMORY_PAGE_SIZE then some 0 else none

theorem freshPage_one : OnePage freshPage := by
  intro a ha
  unfold freshPage
  rw [if_pos ha]
  rfl

/-- A program with an empty argument: the new process finds only its name. -/
theorem empty_argument_is_lost : ¬ ∀ (pcb : PCB) (ram : Ram) (trapArgs : Word) (ps : List Word)
    (strings : List (List Byte)) (a : Arrays) (child : UserMemory),
    ArgVector (userMemory pcb ram) trapArgs ps strings → strings ≠ [] → strings.length ≤ 11 →
    (packed strings).length ≤ 100 → OnePage child →
    ∀ handed r29 mem, TrapProcessCreateHandler pcb a trapArgs false ram = .ok handed →
      layArguments handed.allargs a.dum child = some (r29, mem) → Starts strings r29 mem := by
  intro hall
  have hvec := twoStrings_vector (s := [97]) (t := []) (by decide) (by decide) (by decide)
  have hfits : (packed [[97], []]).length ≤ 100 := by decide
  obtain ⟨handed, rest, r29, mem, hrun, -, hlay, hiff⟩ := created_starts_iff hvec (by simp)
    (by decide) hfits blankArrays freshPage_one
  have hstarts := hall _ _ _ _ _ blankArrays freshPage hvec (by simp) (by decide) hfits
    freshPage_one handed r29 mem hrun hlay
  exact absurd (hiff.mp hstarts) (by decide)

theorem two_arguments_arrive : ∃ handed r29 mem,
    TrapProcessCreateHandler onePage blankArrays 0 false (imageRam (twoStrings [97] [98])) =
      .ok handed ∧ layArguments handed.allargs blankArrays.dum freshPage = some (r29, mem) ∧
    Starts [[97], [98]] r29 mem := by
  obtain ⟨handed, rest, r29, mem, hrun, -, hlay, hiff⟩ := argument_round_trip_iff
    (twoStrings_vector (s := [97]) (t := [98]) (by decide) (by decide) (by decide)) (by simp)
    (by decide) (by decide) blankArrays freshPage_one
  exact ⟨handed, r29, mem, hrun, hlay, hiff.mpr (.inr (by simp))⟩

end dlxos
