-- When the loader stays inside its buffers. A search that finds a NUL stops
-- there, so what matters is where the first NUL of a buffer is, or what the
-- text before the end of the buffer stops the search with.
import DlxOs.Loader

namespace dlxos

variable {x c : Byte} {l junk pre : List Byte}

/-! ## Behind a NUL nothing is read -/

/-- The buffer from here on has a NUL, and `n` bytes at most in front of it. -/
def Ended (junk : List Byte) (n : Nat) (l : List Byte) : Prop :=
  ∃ pre, l = pre ++ 0 :: junk ∧ pre.length ≤ n

theorem Ended.mono {m n : Nat} (h : Ended junk m l) (hmn : m ≤ n) : Ended junk n l := by
  obtain ⟨pre, hl, hlen⟩ := h
  exact ⟨pre, hl, by omega⟩

theorem Ended.mem {n : Nat} (h : Ended junk n l) : 0 ∈ l := by
  obtain ⟨pre, rfl, -⟩ := h
  simp

/-- A byte that is not NUL is in front of the NUL. -/
theorem Ended.tail {n : Nat} {cs : List Byte} (h : Ended junk n (c :: cs)) (hc : c ≠ 0) :
    ∃ m, n = m + 1 ∧ Ended junk m cs := by
  obtain ⟨pre, hl, hlen⟩ := h
  rcases pre with _ | ⟨d, pre⟩
  · rw [List.nil_append] at hl
    exact absurd (List.cons.inj hl).1 hc
  · obtain ⟨rfl, rfl⟩ := List.cons.inj hl
    simp only [List.length_cons] at hlen
    exact ⟨n - 1, by omega, pre, rfl, by omega⟩

theorem Ended.ne_nil {n : Nat} (h : Ended junk n l) : l ≠ [] := List.ne_nil_of_mem h.mem

theorem dindex_isSome (h : 0 ∈ l) : (dindex x l).isSome := by
  induction l with
  | nil => simp at h
  | cons c cs ih =>
    unfold dindex
    split_ifs with h0 hx
    · rfl
    · rfl
    · exact ih ((List.mem_cons.mp h).resolve_left (Ne.symm h0))

theorem Ended.skipBlanks {n : Nat} (h : Ended junk n l) :
    ∃ l', skipBlanks l = some l' ∧ Ended junk n l' := by
  induction l generalizing n with
  | nil => exact absurd rfl h.ne_nil
  | cons c cs ih =>
    unfold dlxos.skipBlanks
    split_ifs with hc
    · have h0 : c ≠ 0 := by
        rintro rfl
        revert hc
        decide
      obtain ⟨m, rfl, hcs⟩ := h.tail h0
      obtain ⟨l', hl', hends⟩ := ih hcs
      exact ⟨l', hl', hends.mono (Nat.le_succ m)⟩
    · exact ⟨c :: cs, rfl, h⟩

theorem Ended.digitLoop {n : Nat} {v : Word} (h : Ended junk n l) :
    ∃ w l', digitLoop 16 v l = some (w, l') ∧ Ended junk n l' := by
  induction l generalizing n v with
  | nil => exact absurd rfl h.ne_nil
  | cons c cs ih =>
    unfold dlxos.digitLoop
    split_ifs with hc
    · have h0 : c ≠ 0 := by
        rintro rfl
        revert hc
        decide
      obtain ⟨m, rfl, hcs⟩ := h.tail h0
      obtain ⟨w, l', hl', hends⟩ := ih hcs
      exact ⟨w, l', hl', hends.mono (Nat.le_succ m)⟩
    · exact ⟨v, c :: cs, rfl, h⟩

theorem baseOf_hex (l : List Byte) : baseOf 16 l = some (16, l) := rfl

theorem dstrtol_nul {base : Nat} {cs : List Byte} (h : skipBlanks l = some (0 :: cs)) :
    dstrtol l base = some (0, 0 :: cs) := by
  unfold dstrtol
  simp only [h, at0, List.head?_cons, Option.bind_eq_bind, Option.bind_some, if_true]
  rfl

theorem dstrtol_minus {base radix : Nat} {cs t : List Byte}
    (h : skipBlanks l = some (chr '-' :: cs)) (hbase : baseOf base cs = some (radix, t))
    (hle : radix ≤ 16) : dstrtol l base = (digitLoop radix 0 t).map fun r => (r.1 * -1, r.2) := by
  have h0 : chr '-' ≠ 0 := by decide
  unfold dstrtol
  simp only [h, at0, List.head?_cons, Option.bind_eq_bind, Option.bind_some, if_neg h0, if_true,
    List.tail_cons, hbase, if_neg (Nat.not_lt.mpr hle)]
  cases digitLoop radix 0 t <;> rfl

theorem dstrtol_plain {base radix : Nat} {cs t : List Byte} (h : skipBlanks l = some (c :: cs))
    (h0 : c ≠ 0) (hm : c ≠ chr '-') (hbase : baseOf base (c :: cs) = some (radix, t))
    (hle : radix ≤ 16) : dstrtol l base = digitLoop radix 0 t := by
  unfold dstrtol
  simp only [h, at0, List.head?_cons, Option.bind_eq_bind, Option.bind_some, if_neg h0, if_neg hm,
    hbase, if_neg (Nat.not_lt.mpr hle)]
  rcases digitLoop radix 0 t with _ | ⟨v, l'⟩
  · rfl
  · exact congrArg (fun w => some (w, l')) (BitVec.mul_one v)

/-- A number ends at the NUL, or before it. -/
theorem Ended.dstrtol {n : Nat} (h : Ended junk n l) :
    ∃ v l', dstrtol l 16 = some (v, l') ∧ Ended junk n l' := by
  obtain ⟨l1, h1, hends1⟩ := h.skipBlanks
  rcases l1 with _ | ⟨c, cs⟩
  · exact absurd rfl hends1.ne_nil
  by_cases h0 : c = 0
  · subst h0
    exact ⟨0, 0 :: cs, dstrtol_nul h1, hends1⟩
  by_cases hm : c = chr '-'
  · subst hm
    obtain ⟨m, rfl, hcs⟩ := hends1.tail h0
    obtain ⟨w, l', hl', hends⟩ := hcs.digitLoop (v := 0)
    refine ⟨w * -1, l', ?_, hends.mono (Nat.le_succ m)⟩
    rw [dstrtol_minus h1 (baseOf_hex _) (Nat.le_refl 16), hl']
    rfl
  · obtain ⟨w, l', hl', hends⟩ := hends1.digitLoop (v := 0)
    refine ⟨w, l', ?_, hends⟩
    rw [dstrtol_plain h1 h0 hm (baseOf_hex _) (Nat.le_refl 16), hl']

/-! ## The data -/

theorem isxdigit_ne_nul (h : isxdigit c = true) : c ≠ 0 := by
  rintro rfl
  revert h
  decide

/-- The bytes of a line stay in the room, because each takes two characters. -/
theorem Ended.dataLoop {room n : Nat} {out : List Byte} {addr : Word} (h : Ended junk n l)
    (hroom : 2 * out.length + n ≤ 2 * room + 1) :
    ∃ x m, dataLoop room l out addr = some x ∧ Ended junk m x.lpos ∧ m ≤ n ∧
      2 * x.out.length + m ≤ 2 * room + 1 := by
  fun_induction dlxos.dataLoop room l out addr generalizing n with
  | case1 out addr => exact absurd rfl h.ne_nil
  | case2 c cs out addr hc ih =>
    have h0 : c ≠ 0 := by
      rintro rfl
      revert hc
      decide
    obtain ⟨m, rfl, hcs⟩ := h.tail h0
    obtain ⟨x, k, hx, hends, hk, hb⟩ := ih hcs (by omega)
    exact ⟨x, k, hx, hends, by omega, hb⟩
  | case3 cs out addr hc =>
    obtain ⟨m, rfl, hcs⟩ := h.tail (by decide)
    exact ⟨_, m, rfl, hcs, by omega, by simp only; omega⟩
  | case4 c out addr hc hn hx =>
    obtain ⟨m, rfl, hcs⟩ := h.tail (isxdigit_ne_nul hx)
    exact absurd rfl hcs.ne_nil
  | case5 c out addr hc hn hx d ds hd hlt ih =>
    obtain ⟨m, rfl, hcs⟩ := h.tail (isxdigit_ne_nul hx)
    obtain ⟨k, rfl, hds⟩ := hcs.tail (isxdigit_ne_nul hd)
    obtain ⟨x, j, hx', hends, hj, hb⟩ := ih hds (by simp only [List.length_append]; simp; omega)
    exact ⟨x, j, hx', hends, by omega, hb⟩
  | case6 c out addr hc hn hx d ds hd hlt =>
    obtain ⟨m, rfl, hcs⟩ := h.tail (isxdigit_ne_nul hx)
    obtain ⟨k, rfl, hds⟩ := hcs.tail (isxdigit_ne_nul hd)
    omega
  | case7 c out addr hc hn hx d ds hd => exact ⟨_, n, rfl, h, Nat.le_refl n, hroom⟩
  | case8 c cs out addr hc hn hx => exact ⟨_, n, rfl, h, Nat.le_refl n, hroom⟩

/-- The first byte, where the buffer ends with a NUL. -/
theorem Ended.head {n : Nat} (h : Ended junk n l) : ∃ c, at0 l = some c ∧ l = c :: l.tail := by
  rcases l with _ | ⟨c, cs⟩
  · exact absurd rfl h.ne_nil
  · exact ⟨c, rfl, rfl⟩

/-- The step to a new address leaves the NUL in front. -/
theorem Ended.lineAddress {n : Nat} {x : Scan} (h : Ended junk n x.lpos) (c : Byte) :
    ∃ a l', lineAddress x c = some (a, l') ∧ Ended junk n l' := by
  unfold dlxos.lineAddress
  split_ifs
  · exact h.dstrtol
  · exact ⟨x.addr, x.lpos, rfl, h⟩

theorem Ended.lineLoop {room : Nat} (fuel : Nat) : ∀ {n : Nat} {x : Scan}, n < fuel →
    Ended junk n x.lpos → 2 * x.out.length + n ≤ 2 * room + 1 →
      ∃ y m, lineLoop room fuel x = some y ∧ Ended junk m y.lpos ∧
        2 * y.out.length + m ≤ 2 * room + 1 := by
  induction fuel with
  | zero => exact fun h => absurd h (Nat.not_lt_zero _)
  | succ fuel ih =>
    intro n x hn h hroom
    unfold dlxos.lineLoop
    obtain ⟨z, hz⟩ := Option.isSome_iff_exists.mp (dindex_isSome (x := chr 'Z') h.mem)
    obtain ⟨k, hk⟩ := Option.isSome_iff_exists.mp (dindex_isSome (x := chr ':') h.mem)
    obtain ⟨c, hc, -⟩ := h.head
    obtain ⟨a, l', haddr, hl'⟩ := h.lineAddress c
    obtain ⟨d, hd, hcons⟩ := hl'.head
    simp only [hz, hk, hc, haddr, hd, Option.bind_eq_bind, Option.bind_some]
    split_ifs with h1 h2 h3 h4
    · exact ⟨x, n, rfl, h, hroom⟩
    · exact ⟨x, n, rfl, h, hroom⟩
    · exact ⟨x, n, rfl, h, hroom⟩
    · exact ⟨_, n, rfl, hl', hroom⟩
    · rw [not_not] at h4
      have hd0 : d ≠ 0 := by
        rw [h4]
        decide
      rw [hcons] at hl'
      obtain ⟨m, rfl, hm⟩ := hl'.tail hd0
      obtain ⟨y, j, hy, hends, hj, hb⟩ := @Ended.dataLoop _ _ room _ x.out a hm
        (by omega)
      rw [hy, Option.bind_some]
      exact ih (by omega) hends hb

/-! ## The window -/

theorem lastNewline_some {buf : List Byte} {n i : Nat} (h : lastNewline buf n = some i) :
    i < n ∧ buf[i]? = some (chr '\n') := by
  induction n with
  | zero => cases h
  | succ n ih =>
    unfold lastNewline at h
    split_ifs at h with hn
    · obtain rfl := Option.some.inj h
      exact ⟨Nat.lt_succ_self _, hn⟩
    · obtain ⟨hlt, hi⟩ := ih h
      exact ⟨by omega, hi⟩

theorem lastNewline_isSome {buf : List Byte} {n : Nat} :
    (lastNewline buf n).isSome ↔ chr '\n' ∈ buf.take n := by
  induction n with
  | zero => simp [lastNewline]
  | succ n ih =>
    unfold lastNewline
    rw [List.take_add_one, List.mem_append]
    split_ifs with hn
    · simp [hn]
    · rw [ih]
      refine ⟨.inl, fun h => h.resolve_right fun hmem => hn ?_⟩
      rcases hb : buf[n]? with _ | d
      · simp [hb] at hmem
      · simp only [hb, Option.toList_some, List.mem_singleton] at hmem
        rw [hmem]

theorem set_two {as ds : List Byte} {b d x y : Byte} {k : Nat} (h : as.length = k) :
    ((as ++ b :: d :: ds).set k x).set (k + 1) y = as ++ x :: y :: ds := by
  subst h
  rw [List.set_append_right _ _ (Nat.le_refl _), Nat.sub_self, List.set_cons_zero,
    List.set_append_right _ _ (Nat.le_succ _), Nat.succ_sub (Nat.le_refl _), Nat.sub_self,
    List.set_cons_succ, List.set_cons_zero]

/-- The buffer after the marks: the lines that are whole, `Z`, and a NUL. -/
theorem markEnd_eq {buf : List Byte} {n i : Nat} (h : lastNewline buf n = some i)
    (hi : i + 2 < buf.length) :
    markEnd buf n = some (buf.take (i + 1) ++ chr 'Z' :: 0 :: buf.drop (i + 3)) := by
  have hset : (buf.set (i + 1) (chr 'Z')).set (i + 2) 0 =
      buf.take (i + 1) ++ chr 'Z' :: 0 :: buf.drop (i + 3) := by
    have hbuf : buf = buf.take (i + 1) ++ buf[i + 1] :: buf[i + 2] :: buf.drop (i + 3) := by
      conv_lhs => rw [← List.take_append_drop (i + 1) buf, List.drop_eq_getElem_cons (by omega),
        List.drop_eq_getElem_cons hi]
    conv_lhs => rw [hbuf]
    refine set_two ?_
    rw [List.length_take]
    omega
  unfold markEnd store
  simp only [h, Option.bind_eq_bind, Option.bind_some]
  rw [if_pos (by omega), Option.bind_some, List.length_set, if_pos hi, hset]

theorem markEnd_isSome {buf : List Byte} {n : Nat} (hn : n + 2 ≤ buf.length) :
    (markEnd buf n).isSome ↔ chr '\n' ∈ buf.take n := by
  rw [← lastNewline_isSome]
  rcases h : lastNewline buf n with _ | i
  · unfold markEnd
    simp [h]
  · rw [markEnd_eq h (by have := (lastNewline_some h).1; omega)]
    rfl

theorem filled_take {bytes stack : List Byte} : (filled bytes stack).take bytes.length = bytes := by
  unfold filled
  simp

theorem filled_length {bytes stack : List Byte} (h : bytes.length ≤ stack.length) :
    (filled bytes stack).length = stack.length := by
  unfold filled
  rw [List.length_append, List.length_drop]
  omega

/-- The bytes that one call of `ProcessGetFromFile` reads. -/
def window (max : Nat) (f : File) : List Byte := (f.content.drop f.pos).take (min 200 (max * 2))

theorem window_length (max : Nat) (f : File) :
    (window max f).length ≤ 200 ∧ (window max f).length ≤ max * 2 := by
  unfold window
  rw [List.length_take]
  omega

/-- What a call returns, and where it leaves the file, once its loops have stopped. -/
def scanned (buf : List Byte) (f : File) (x : Scan) : Int × List Byte × Word × File :=
  (x.out.length, x.out, x.addr,
    { f with pos := ((f.pos : Int) + (buf.length - x.lpos.length)).toNat })

/-- The call, from what it reads. -/
theorem getFromFile_eq (stack : List Byte) (room : Nat) (addr : Word) (max : Nat) (f : File) :
    ProcessGetFromFile byteString stack room addr max f =
      if window max f = [] then some (0, [], addr, f)
      else (markEnd (filled (window max f) stack) (window max f).length).bind fun localbuf =>
        (lineLoop room (localbuf.length + 1) ⟨localbuf, [], addr⟩).map (scanned localbuf f) := by
  have hmax : (if max * 2 > 200 then 200 else max * 2) = min 200 (max * 2) := by
    split <;> omega
  have hcur : ¬ FS_SEEK_CUR = FS_SEEK_SET := by decide
  have hpos : ((f.pos : Int) + 0).toNat = f.pos := by omega
  unfold ProcessGetFromFile
  simp only [byteString, hmax, if_neg hcur, if_true, Int.toNat_natCast]
  rw [Int.add_zero, Int.toNat_natCast]
  change (if ((window max f).length : Int) ≤ 0 then _ else _) = _
  by_cases hw : window max f = []
  · rw [if_pos hw, if_pos (by simp [hw])]
    have hlen : (window max f).length = 0 := by rw [hw, List.length_nil]
    exact congrArg (fun n => some ((0 : Int), ([] : List Byte), addr, { f with pos := f.pos + n }))
      hlen
  · have hlen : ¬ ((window max f).length : Int) ≤ 0 := by
      have := List.length_pos_of_ne_nil hw
      omega
    rw [if_neg hw, if_neg hlen]
    refine congrArg (Option.bind _) (funext fun localbuf => ?_)
    exact (Option.map_eq_bind ..).symm

theorem getFromFile_isSome {stack : List Byte} (hstack : stack.length = 204) (addr : Word)
    (max : Nat) (f : File) :
    (ProcessGetFromFile byteString stack max addr max f).isSome ↔
      window max f = [] ∨ chr '\n' ∈ window max f := by
  obtain ⟨h200, hmax⟩ := window_length max f
  have hlen : (filled (window max f) stack).length = 204 := by
    rw [filled_length (by omega), hstack]
  have hmark := @markEnd_isSome (filled (window max f) stack) ((window max f).length)
    (by omega)
  rw [filled_take] at hmark
  rw [getFromFile_eq, ← hmark]
  by_cases hw : window max f = []
  · simp [hw]
  rw [if_neg hw]
  rcases hnl : lastNewline (filled (window max f) stack) (window max f).length with _ | i
  · have hnone : markEnd (filled (window max f) stack) (window max f).length = none := by
      unfold markEnd
      simp [hnl]
    simp [hw, hnone]
  · have hi := (lastNewline_some hnl).1
    have hsome := markEnd_eq hnl (by omega)
    generalize hbuf : (filled (window max f) stack).take (i + 1) ++
      chr 'Z' :: 0 :: (filled (window max f) stack).drop (i + 3) = buf at hsome
    have hends : Ended ((filled (window max f) stack).drop (i + 3)) (i + 2) buf := by
      refine ⟨(filled (window max f) stack).take (i + 1) ++ [chr 'Z'], by simp [← hbuf], ?_⟩
      rw [List.length_append, List.length_take, List.length_singleton]
      omega
    have hfuel : i + 2 < buf.length + 1 := by
      rw [← hbuf, List.length_append, List.length_take, List.length_cons, List.length_cons]
      omega
    obtain ⟨y, m, hy, -, -⟩ := @Ended.lineLoop _ max _ _ ⟨buf, [], addr⟩ hfuel hends
      (by simp only [List.length_nil]; omega)
    rw [hsome, Option.bind_some, hy]
    simp

/-! ## The header -/

theorem dindex_isSome_iff : (dindex x l).isSome ↔ 0 ∈ l ∨ x ∈ l := by
  induction l with
  | nil => simp [dindex]
  | cons c cs ih =>
    unfold dindex
    split_ifs with h0 hx
    · simp [h0]
    · simp [hx]
    · rw [ih, List.mem_cons, List.mem_cons]
      simp only [Ne.symm h0, Ne.symm hx, false_or]

/-- A search that meets its byte before a NUL. -/
theorem dindex_found {a b : List Byte} (h0 : 0 ∉ a) (hx : x ∉ a) (hx0 : x ≠ 0) :
    dindex x (a ++ x :: b) = some (some (x :: b)) := by
  induction a with
  | nil =>
    rw [List.nil_append, dindex, if_neg hx0, if_pos rfl]
  | cons c cs ih =>
    rw [List.mem_cons, not_or] at h0 hx
    rw [List.cons_append, dindex, if_neg (Ne.symm h0.1), if_neg (Ne.symm hx.1)]
    exact ih h0.2 hx.2

theorem startsWith_true {p : List Byte} :
    startsWith p l = some true ↔ ∃ post, l = p ++ post := by
  induction p generalizing l with
  | nil => simp [startsWith]
  | cons d ds ih =>
    rcases l with _ | ⟨c, cs⟩
    · simp [startsWith]
    · unfold startsWith
      by_cases hc : c = d
      · simp [hc, ih]
      · simp [hc]

/-- A string with a NUL is compared up to the NUL at most. -/
theorem startsWith_nul {p : List Byte} (hp : 0 ∉ p) (h : 0 ∈ l) : (startsWith p l).isSome := by
  induction p generalizing l with
  | nil => rfl
  | cons d ds ih =>
    rw [List.mem_cons, not_or] at hp
    rcases l with _ | ⟨c, cs⟩
    · simp at h
    · unfold startsWith
      by_cases hc : c = d
      · rw [if_pos hc]
        exact ih hp.2 ((List.mem_cons.mp h).resolve_left (hc ▸ hp.1))
      · rw [if_neg hc]
        rfl

theorem dstrstr_nul {p : List Byte} (hp : 0 ∉ p) (h : 0 ∈ l) : (dstrstr p l).isSome := by
  induction l with
  | nil => simp at h
  | cons c cs ih =>
    unfold dstrstr
    obtain ⟨r, hr⟩ := Option.isSome_iff_exists.mp (startsWith_nul hp h)
    split_ifs with h0
    · rfl
    · have hcs := ih ((List.mem_cons.mp h).resolve_left (Ne.symm h0))
      rcases r with _ | _
      all_goals
        rw [hr]
        first
          | exact hcs
          | rfl

theorem dstrstr_none {p : List Byte} (h : dstrstr p l = some none) : 0 ∈ l := by
  induction l with
  | nil => cases h
  | cons c cs ih =>
    unfold dstrstr at h
    by_cases h0 : c = 0
    · simp [h0]
    rw [if_neg h0] at h
    rcases hs : startsWith p (c :: cs) with _ | _ | _
    all_goals rw [hs] at h
    · cases h
    · exact List.mem_cons_of_mem _ (ih h)
    · cases h

theorem dstrstr_found {p r : List Byte} (h : dstrstr p l = some (some r)) :
    ∃ pre post, l = pre ++ p ++ post ∧ 0 ∉ pre := by
  induction l with
  | nil => cases h
  | cons c cs ih =>
    unfold dstrstr at h
    by_cases h0 : c = 0
    · rw [if_pos h0] at h
      cases h
    rw [if_neg h0] at h
    rcases hs : startsWith p (c :: cs) with _ | _ | _
    all_goals rw [hs] at h
    · cases h
    · obtain ⟨pre, post, rfl, hpre⟩ := ih h
      exact ⟨c :: pre, post, rfl, by rw [List.mem_cons, not_or]; exact ⟨Ne.symm h0, hpre⟩⟩
    · obtain ⟨post, hpost⟩ := startsWith_true.mp hs
      exact ⟨[], post, hpost, by simp⟩

theorem startsWith_none {p : List Byte} (h : startsWith p l = none) : l.length < p.length := by
  induction p generalizing l with
  | nil => cases h
  | cons d ds ih =>
    rcases l with _ | ⟨c, cs⟩
    · simp
    · unfold startsWith at h
      split_ifs at h
      have := ih h
      simp only [List.length_cons]
      omega

/-- Without a NUL, the search ends only where the pattern is. -/
theorem dstrstr_isSome_iff {p : List Byte} (h : 0 ∉ l) (hp : p ≠ []) :
    (dstrstr p l).isSome ↔ p <:+: l := by
  induction l with
  | nil => simp [dstrstr, hp]
  | cons c cs ih =>
    rw [List.mem_cons, not_or] at h
    unfold dstrstr
    rw [if_neg (Ne.symm h.1), List.infix_cons_iff]
    rcases hs : startsWith p (c :: cs) with _ | _ | _
    · refine iff_of_false (by simp) fun hin => ?_
      have hlen := startsWith_none hs
      rcases hin with hin | hin
      · have := hin.length_le
        omega
      · have := hin.length_le
        simp only [List.length_cons] at hlen
        omega
    · have hnot : ¬ p <+: c :: cs := by
        rintro ⟨post, hpost⟩
        rw [startsWith_true.mpr ⟨post, hpost.symm⟩] at hs
        cases hs
      simp only [hnot, false_or]
      exact ih h.2
    · obtain ⟨post, hpost⟩ := startsWith_true.mp hs
      exact iff_of_true rfl (.inl ⟨post, hpost.symm⟩)

/-! The six numbers. -/

def isBlank (c : Byte) : Bool := c = chr ' ' ∨ c = chr '\t' ∨ c = chr '\n'

/-- The text behind the first number: blanks, a sign and digits are gone. -/
def afterNumber (l : List Byte) : List Byte :=
  let l := l.dropWhile isBlank
  let l := if l.head? = some (chr '-') then l.tail else l
  l.dropWhile fun c => curdigit c < 16

theorem skipBlanks_eq : skipBlanks l =
    if l.dropWhile isBlank = [] then none else some (l.dropWhile isBlank) := by
  induction l with
  | nil => rfl
  | cons c cs ih =>
    unfold skipBlanks
    by_cases hc : c = chr ' ' ∨ c = chr '\t' ∨ c = chr '\n'
    · have hb : isBlank c = true := by simpa [isBlank] using hc
      rw [if_pos hc, List.dropWhile_cons_of_pos hb, ih]
    · have hb : ¬ isBlank c = true := by simpa [isBlank] using hc
      rw [if_neg hc, List.dropWhile_cons_of_neg hb, if_neg (by simp)]

theorem digitLoop_eq (v : Word) : ∃ w, digitLoop 16 v l =
    if (l.dropWhile fun c => curdigit c < 16) = [] then none
    else some (w, l.dropWhile fun c => curdigit c < 16) := by
  induction l generalizing v with
  | nil => exact ⟨0, rfl⟩
  | cons c cs ih =>
    unfold digitLoop
    by_cases hc : curdigit c < 16
    · obtain ⟨w, hw⟩ := ih (v * BitVec.ofNat 32 16 + BitVec.ofNat 32 (curdigit c))
      refine ⟨w, ?_⟩
      rw [if_pos hc, List.dropWhile_cons_of_pos (by simpa using hc), hw]
    · refine ⟨v, ?_⟩
      rw [if_neg hc, List.dropWhile_cons_of_neg (by simpa using hc), if_neg (by simp)]

/-- Without a NUL, a number ends only where some text is left behind it. -/
theorem dstrtol_eq (h : 0 ∉ l) : ∃ v, dstrtol l 16 =
    if afterNumber l = [] then none else some (v, afterNumber l) := by
  unfold afterNumber
  rcases hb : l.dropWhile isBlank with _ | ⟨c, cs⟩
  · refine ⟨0, ?_⟩
    have hnone : skipBlanks l = none := by rw [skipBlanks_eq, if_pos hb]
    unfold dstrtol
    simp [hnone]
  have hskip : skipBlanks l = some (c :: cs) := by
    rw [skipBlanks_eq, hb, if_neg (by simp)]
  have hc : c ≠ 0 := by
    rintro rfl
    have hsub := (List.dropWhile_sublist (l := l) isBlank).subset
    rw [hb] at hsub
    exact h (hsub (List.mem_cons_self ..))
  by_cases hm : c = chr '-'
  · subst hm
    obtain ⟨w, hw⟩ := digitLoop_eq (l := cs) 0
    refine ⟨w * -1, ?_⟩
    rw [dstrtol_minus hskip (baseOf_hex _) (Nat.le_refl 16), hw]
    simp only [List.head?_cons, if_true, List.tail_cons]
    split_ifs <;> rfl
  · obtain ⟨w, hw⟩ := digitLoop_eq (l := c :: cs) 0
    refine ⟨w, ?_⟩
    have hne : ¬ (c :: cs).head? = some (chr '-') := by simpa using hm
    rw [dstrtol_plain hskip hc hm (baseOf_hex _) (Nat.le_refl 16), hw]
    simp only [if_neg hne]

/-- The text behind several numbers, as `dstrtol` gives it. -/
def behindNumbers : Nat → List Byte → Option (List Byte)
  | 0, l => some l
  | n + 1, l => (dstrtol l 16).bind fun r => behindNumbers n r.2

theorem afterNumber_suffix (l : List Byte) : afterNumber l <:+ l := by
  unfold afterNumber
  have h1 := List.dropWhile_suffix (l := l) isBlank
  simp only
  split_ifs
  · exact (List.dropWhile_suffix _).trans ((List.tail_suffix _).trans h1)
  · exact (List.dropWhile_suffix _).trans h1

theorem behindNumbers_isSome {n : Nat} (h : 0 ∉ l) :
    (behindNumbers n l).isSome ↔ n = 0 ∨ afterNumber^[n] l ≠ [] := by
  induction n generalizing l with
  | zero => simp [behindNumbers]
  | succ n ih =>
    have h' : 0 ∉ afterNumber l := fun hin => h ((afterNumber_suffix l).subset hin)
    obtain ⟨v, hv⟩ := dstrtol_eq h
    unfold behindNumbers
    rw [hv, Function.iterate_succ_apply]
    by_cases hnil : afterNumber l = []
    · have hstuck : afterNumber^[n] [] = [] := Function.iterate_fixed rfl n
      rw [if_pos hnil, hnil, hstuck]
      simp
    · rw [if_neg hnil, Option.bind_some, ih h']
      rcases n with _ | n
      · simp [hnil]
      · simp

theorem behindNumbers_nul (n : Nat) (h : 0 ∈ l) : (behindNumbers n l).isSome := by
  induction n generalizing l with
  | zero => rfl
  | succ n ih =>
    obtain ⟨pre, junk, rfl⟩ := List.append_of_mem h
    have hends : Ended junk pre.length (pre ++ 0 :: junk) := ⟨pre, rfl, Nat.le_refl _⟩
    obtain ⟨v, l', hl', hends'⟩ := hends.dstrtol
    unfold behindNumbers
    rw [hl', Option.bind_some]
    exact ih hends'.mem

theorem headerNumbers_isSome {buf rest : List Byte}
    (h : dindex (chr ':') buf = some (some (chr ':' :: rest))) :
    (headerNumbers buf).isSome ↔ (behindNumbers 6 rest).isSome := by
  unfold headerNumbers
  simp only [h, Option.bind_eq_bind, Option.bind_some, Option.map_some, List.tail_cons,
    behindNumbers]
  rcases dstrtol rest 16 with _ | ⟨v1, l1⟩
  · rfl
  simp only [Option.bind_some]
  rcases dstrtol l1 16 with _ | ⟨v2, l2⟩
  · rfl
  simp only [Option.bind_some]
  rcases dstrtol l2 16 with _ | ⟨v3, l3⟩
  · rfl
  simp only [Option.bind_some]
  rcases dstrtol l3 16 with _ | ⟨v4, l4⟩
  · rfl
  simp only [Option.bind_some]
  rcases dstrtol l4 16 with _ | ⟨v5, l5⟩
  · rfl
  simp only [Option.bind_some]
  rcases dstrtol l5 16 with _ | ⟨v6, l6⟩
  · rfl
  · rfl

/-- The header has a NUL, or it has a start line, six numbers that end inside it,
and a newline. -/
def HeaderSafe (buf : List Byte) : Prop :=
  0 ∈ buf ∨ startText <:+: buf ∧ chr '\n' ∈ buf ∧
    afterNumber^[6] (buf.dropWhile (· ≠ chr ':')).tail ≠ []

theorem first_colon (h : chr ':' ∈ l) : ∃ a b, l = a ++ chr ':' :: b ∧ chr ':' ∉ a := by
  obtain ⟨a, b, hl, ha⟩ := List.eq_append_cons_of_mem h
  exact ⟨a, b, hl, ha⟩

theorem behind_colon {a b : List Byte} (h : chr ':' ∉ a) :
    ((a ++ chr ':' :: b).dropWhile (· ≠ chr ':')).tail = b := by
  induction a with
  | nil => simp
  | cons c cs ih =>
    rw [List.mem_cons, not_or] at h
    rw [List.cons_append, List.dropWhile_cons_of_pos (by simpa using Ne.symm h.1)]
    exact ih h.2

theorem startText_ne : startText ≠ [] ∧ 0 ∉ startText ∧ chr ':' ∈ startText := by decide

/-- The parts of the header that look at the buffer. -/
def headerBytes (here : Int) (buf : List Byte) : Option (Option (CodeInfo × Int)) := do
  if (← dstrstr startText buf) = none then return none
  let info ← headerNumbers buf
  let offset ← lineOffset here buf
  return some (info, offset)

theorem lineOffset_isSome {here : Int} {buf : List Byte} :
    (lineOffset here buf).isSome ↔ 0 ∈ buf ∨ chr '\n' ∈ buf := by
  rw [← dindex_isSome_iff]
  unfold lineOffset
  rcases dindex (chr '\n') buf with _ | _ | _ <;> simp

/-- The first colon is in the start line, or in front of it, and before any NUL. -/
theorem colon_of_start {buf r : List Byte} (h : dstrstr startText buf = some (some r)) :
    ∃ a b, buf = a ++ chr ':' :: b ∧ chr ':' ∉ a ∧ 0 ∉ a ∧
      dindex (chr ':') buf = some (some (chr ':' :: b)) := by
  obtain ⟨hne, hnul, hcolon⟩ := startText_ne
  obtain ⟨pre, post, rfl, hpre⟩ := dstrstr_found h
  obtain ⟨a, b, hab, ha⟩ := first_colon (List.mem_append_right pre hcolon)
  have ha0 : 0 ∉ a := by
    intro hin
    have hmem : 0 ∈ pre ++ startText := hab ▸ List.mem_append_left _ hin
    rcases List.mem_append.mp hmem with hmem | hmem
    · exact hpre hmem
    · exact hnul hmem
  refine ⟨a, b ++ post, by rw [hab]; simp, ha, ha0, ?_⟩
  rw [hab, List.append_assoc, List.cons_append]
  exact dindex_found ha0 ha (by decide)

theorem headerBytes_isSome {here : Int} {buf : List Byte} :
    (headerBytes here buf).isSome ↔ HeaderSafe buf := by
  obtain ⟨hne, hnul, hcolon⟩ := startText_ne
  unfold headerBytes HeaderSafe
  by_cases h0 : 0 ∈ buf
  · refine iff_of_true ?_ (.inl h0)
    obtain ⟨r, hr⟩ := Option.isSome_iff_exists.mp (dstrstr_nul hnul h0)
    obtain ⟨o, ho⟩ := Option.isSome_iff_exists.mp ((@lineOffset_isSome here _).mpr (.inl h0))
    rcases r with _ | r
    · simp [hr]
    · obtain ⟨a, b, hbuf, ha, ha0, hcol⟩ := colon_of_start hr
      have hb : 0 ∈ b := by
        rw [hbuf, List.mem_append, List.mem_cons] at h0
        exact (h0.resolve_left ha0).resolve_left (by decide)
      obtain ⟨info, hinfo⟩ := Option.isSome_iff_exists.mp
        ((headerNumbers_isSome hcol).mpr (behindNumbers_nul 6 hb))
      simp [hr, hinfo, ho]
  · rw [or_iff_right h0]
    have hin := dstrstr_isSome_iff h0 hne
    have hnl := @lineOffset_isSome here buf
    rw [or_iff_right h0] at hnl
    rcases hr : dstrstr startText buf with _ | _ | r
    · rw [hr] at hin
      simp only [Option.bind_eq_bind, Option.bind_none, Option.isSome_none, Bool.false_eq_true,
        false_iff] at hin ⊢
      exact fun h => hin h.1
    · exact absurd (dstrstr_none hr) h0
    · obtain ⟨a, b, hbuf, ha, -, hcol⟩ := colon_of_start hr
      have hb : 0 ∉ b := fun hb =>
        h0 (by rw [hbuf]; exact List.mem_append_right _ (List.mem_cons_of_mem _ hb))
      have hnum := (headerNumbers_isSome hcol).trans (behindNumbers_isSome (n := 6) hb)
      rw [or_iff_right (by decide), ← behind_colon (b := b) ha, ← hbuf] at hnum
      rw [hr] at hin
      rw [← hin, ← hnl, ← hnum]
      rcases headerNumbers buf with _ | info <;> rcases lineOffset here buf with _ | offset <;>
        simp

/-! ## The two routines -/

theorem readHeader_isSome {F : Type} {io : FileIo F} {here : Int} {stack : List Byte} {f : F} :
    (readHeader io here stack f).isSome ↔
      (io.read 100 f).1.1 ≠ 100 ∨ HeaderSafe (filled (io.read 100 f).1.2 stack) := by
  rw [← @headerBytes_isSome here]
  unfold readHeader headerBytes
  rcases io.read 100 f with ⟨⟨n, bytes⟩, f'⟩
  simp only [Option.bind_eq_bind]
  by_cases hn : n = 100
  · rw [if_neg (not_not.mpr hn), or_iff_right (not_not.mpr hn)]
    rcases dstrstr startText (filled bytes stack) with _ | _ | r
    · rfl
    · rfl
    · simp only [Option.bind_some, reduceCtorEq, if_false]
      rcases headerNumbers (filled bytes stack) with _ | info
      · rfl
      · rcases lineOffset here (filled bytes stack) with _ | offset <;> rfl
  · rw [if_pos hn]
    exact iff_of_true rfl (.inl hn)

variable {H : Type} {host : Host H} {s : FsState H}

/-- A read of 100 bytes that returns 100 has filled the buffer. -/
theorem FsRead_length {fd : Int} (h : (FsRead host fd 100 s).1.1 = 100) :
    (FsRead host fd 100 s).1.2.length = 100 := by
  unfold FsRead at h ⊢
  by_cases hv : FdValid fd s = true
  swap
  · rw [if_neg hv] at h
    cases h
  rw [if_pos hv] at h ⊢
  generalize (s.openfiles (slotOf fd)).fs = k at h ⊢
  match k with
  | 0 =>
    have hstores := host.read_stores (s.openfiles (slotOf fd)).u 100 s.host
    have hret : (host.read (s.openfiles (slotOf fd)).u 100 s.host).1.1 = 100 := h
    rw [hret] at hstores
    exact hstores
  | 1 =>
    have hret : (1 : Int) = 100 := h
    omega

/-- The file is not opened, or it has fewer than 100 bytes, or they are safe. -/
def CodeInfoSafe (host : Host H) (file : List Byte) (s : FsState H) : Prop :=
  let (fd, s') := FsOpen host file FS_MODE_READ s
  fd < 0 ∨ (FsRead host fd 100 s').1.1 ≠ 100 ∨ HeaderSafe (FsRead host fd 100 s').1.2

theorem getCodeInfo_isSome {file : List Byte} {here : Int} (stack : Vector Byte 100) :
    (ProcessGetCodeInfo host file here stack.toList s).isSome ↔ CodeInfoSafe host file s := by
  unfold ProcessGetCodeInfo CodeInfoSafe
  rcases FsOpen host file FS_MODE_READ s with ⟨fd, s'⟩
  simp only
  by_cases hfd : fd < 0
  · simp [hfd]
  rw [if_neg hfd, or_iff_right hfd]
  have hsafe : (FsRead host fd 100 s').1.1 ≠ 100 ∨
      HeaderSafe (filled (FsRead host fd 100 s').1.2 stack.toList) ↔
        (FsRead host fd 100 s').1.1 ≠ 100 ∨ HeaderSafe (FsRead host fd 100 s').1.2 := by
    refine or_congr_right' fun hn => ?_
    have hlen := FsRead_length (not_not.mp hn)
    unfold filled
    rw [hlen, List.drop_of_length_le (by simp), List.append_nil]
  rw [← hsafe]
  refine Iff.trans ?_ (@readHeader_isSome _ (fsIo host fd) here _ _)
  rcases readHeader (fsIo host fd) here stack.toList s' with _ | ⟨_ | _ | info, t⟩ <;> rfl

/-- The loader stays inside its buffers just when the file stops its searches:
the header with a NUL, or with all that a header has, and each window of the data
with a newline. -/
theorem loader_stays_inside_iff {H : Type} (host : Host H) (file : List Byte) (here : Int)
    (stack : Vector Byte 100) (s : FsState H) (stack' : Vector Byte 204) (addr : Word) (max : Nat)
    (f : File) :
    ((ProcessGetCodeInfo host file here stack.toList s).isSome ↔ CodeInfoSafe host file s) ∧
      ((ProcessGetFromFile byteString stack'.toList max addr max f).isSome ↔
        window max f = [] ∨ chr '\n' ∈ window max f) :=
  ⟨getCodeInfo_isSome stack, getFromFile_isSome stack'.length_toList addr max f⟩

/-- A file of one character. -/
theorem search_runs_off_the_buffer : ¬ ∀ (stack : Vector Byte 204) (addr : Word) (f : File),
    (ProcessGetFromFile byteString stack.toList 100 addr 100 f).isSome := by
  intro hall
  have hsome := hall (Vector.replicate 204 0) 0 ⟨[chr 'a'], 0⟩
  rw [getFromFile_isSome (Vector.length_toList ..)] at hsome
  rcases hsome with h | h
  · exact absurd h (by decide)
  · exact absurd h (by decide)

end dlxos
