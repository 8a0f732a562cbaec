-- One call of the loader on a load file. It takes the lines that are whole in its
-- window, up to the next address or the first refused byte.
import DlxOs.LoadFile

namespace dlxos

variable {room max fuel : Nat} {junk out : List Byte} {addr : Word} {l : Line} {ls ws : List Line}

/-! ## The window -/

/-- What is left of a file. -/
def File.rest (f : File) : List Byte := f.content.drop f.pos

/-- The lines that are whole in the next `room` characters. -/
def whole : Nat → List Line → List Line
  | _, [] => []
  | room, l :: ls => if l.text.length ≤ room then l :: whole (room - l.text.length) ls else []

theorem whole_starts : ∀ (room : Nat) (ls : List Line), whole room ls <+: ls := by
  intro room ls
  induction ls generalizing room with
  | nil => exact List.prefix_refl _
  | cons l ls ih =>
    unfold whole
    split_ifs with h
    · exact List.cons_prefix_cons.mpr ⟨rfl, ih _⟩
    · exact List.nil_prefix

theorem whole_length (room : Nat) (ls : List Line) : (fileText (whole room ls)).length ≤ room := by
  induction ls generalizing room with
  | nil => exact Nat.zero_le _
  | cons l ls ih =>
    unfold whole
    split_ifs with h
    · have := ih (room - l.text.length)
      rw [fileText_cons, List.length_append]
      omega
    · exact Nat.zero_le _

/-- A window ends in the middle of a line, without its newline. -/
theorem take_fileText (room : Nat) (ls : List Line) : ∃ part,
    (fileText ls).take room = fileText (whole room ls) ++ part ∧ chr '\n' ∉ part := by
  induction ls generalizing room with
  | nil => exact ⟨[], by simp [fileText, whole], by simp⟩
  | cons l ls ih =>
    unfold whole
    split_ifs with h
    · obtain ⟨part, hpart, hnl⟩ := ih (room - l.text.length)
      refine ⟨part, ?_, hnl⟩
      rw [fileText_cons, fileText_cons, List.take_append, List.take_of_length_le h, hpart,
        List.append_assoc]
    · refine ⟨(lineText l.address l.lead l.data).take room, ?_, fun hm => ?_⟩
      · have htext : l.text.length = (lineText l.address l.lead l.data).length + 1 := by
          unfold Line.text
          rw [List.length_append, List.length_singleton]
        rw [fileText_cons, List.take_append_of_le_length (by omega)]
        unfold Line.text
        rw [List.take_append_of_le_length (by omega)]
        rfl
      · exact (lineText_plain (List.mem_of_mem_take hm)).2 rfl

/-- The whole lines end in a newline. -/
theorem fileText_ends (h : ls ≠ []) : ∃ t, fileText ls = t ++ [chr '\n'] := by
  obtain ⟨xs, x, rfl⟩ := (List.eq_nil_or_concat' ls).resolve_left h
  refine ⟨fileText xs ++ lineText x.address x.lead x.data, ?_⟩
  rw [fileText_append, fileText_cons, Line.text]
  simp [fileText]

theorem lastNewline_eq {buf : List Byte} {i : Nat} (hi : buf[i]? = some (chr '\n')) :
    ∀ {n : Nat}, i < n → (∀ j, i < j → j < n → buf[j]? ≠ some (chr '\n')) →
      lastNewline buf n = some i := by
  intro n
  induction n with
  | zero => exact fun h => absurd h (Nat.not_lt_zero _)
  | succ n ih =>
    intro hlt hlast
    unfold lastNewline
    by_cases he : i = n
    · subst he
      exact if_pos hi
    · rw [if_neg (hlast n (by omega) (Nat.lt_succ_self n))]
      exact ih (by omega) fun j h1 h2 => hlast j h1 (by omega)

theorem rest_drop (f : File) (n : Nat) :
    ({ f with pos := f.pos + n } : File).rest = f.rest.drop n := by
  unfold File.rest
  rw [List.drop_drop]

/-- What is left of a file from the last `s` of some text on. -/
theorem rest_from {f : File} {text s : List Byte} (htext : text <+: f.rest) (hs : s <:+ text) :
    ({ f with pos := f.pos + (text.length - s.length) } : File).rest =
      s ++ f.rest.drop text.length := by
  obtain ⟨behind, hbehind⟩ := htext
  obtain ⟨front, rfl⟩ := hs
  rw [rest_drop, ← hbehind, List.drop_left, List.length_append, Nat.add_sub_cancel,
    List.append_assoc]
  exact List.drop_left

/-- The marks behind the whole lines of the buffer. -/
theorem markEnd_lines {t part stack : List Byte} (hpart : chr '\n' ∉ part)
    (hroom : (t ++ [chr '\n'] ++ part).length + 4 ≤ stack.length) : ∃ junk,
      markEnd (filled (t ++ [chr '\n'] ++ part) stack) (t ++ [chr '\n'] ++ part).length =
          some (t ++ [chr '\n'] ++ tailMark junk) ∧
        (t ++ [chr '\n'] ++ tailMark junk).length = stack.length := by
  obtain ⟨buf, hbuf⟩ : ∃ buf, buf = filled (t ++ [chr '\n'] ++ part) stack := ⟨_, rfl⟩
  have hfill : buf.length = stack.length := hbuf ▸ filled_length (by omega)
  have hsplit : buf = (t ++ [chr '\n']) ++
      (part ++ stack.drop (t ++ [chr '\n'] ++ part).length) := by
    rw [hbuf, filled, List.append_assoc]
  have hend : (t ++ [chr '\n']).length = t.length + 1 := by
    rw [List.length_append, List.length_singleton]
  rw [List.length_append, hend] at hroom
  have hget : buf[t.length]? = some (chr '\n') := by
    rw [hsplit, List.getElem?_append_left (by simp), List.getElem?_append_right (Nat.le_refl _),
      Nat.sub_self]
    rfl
  have hlast : lastNewline buf (t ++ [chr '\n'] ++ part).length = some t.length := by
    rw [List.length_append, hend]
    refine lastNewline_eq hget (by omega) fun j h1 h2 he => ?_
    rw [hsplit, List.getElem?_append_right (by omega), hend,
      List.getElem?_append_left (by omega)] at he
    exact hpart (List.mem_of_getElem? he)
  have htake : buf.take (t.length + 1) = t ++ [chr '\n'] := by
    rw [hsplit]
    exact List.take_left' (by simp)
  have hmark := markEnd_eq hlast (by omega)
  rw [htake] at hmark
  refine ⟨buf.drop (t.length + 3), hbuf ▸ hmark, ?_⟩
  unfold tailMark
  simp only [List.length_append, List.length_cons, List.length_nil, List.length_drop]
  omega

/-- The call, from the whole lines `t` of its window. Where the loops stop with `s`
in front of them, the next call starts with `s`. -/
theorem getFromFile_window (hmax : 100 ≤ max) (stack : Vector Byte 204) (addr : Word) {f : File}
    {t part : List Byte} (hwin : f.rest.take 200 = (t ++ [chr '\n']) ++ part)
    (hpart : chr '\n' ∉ part) : ∃ junk, ∀ x,
      lineLoop max 205 ⟨t ++ [chr '\n'] ++ tailMark junk, [], addr⟩ = some x →
      ∃ f' : File, ProcessGetFromFile byteString stack.toList max addr max f =
          some ((x.out.length : Int), x.out, x.addr, f') ∧
        ∀ s, x.lpos = s ++ tailMark junk → s <:+ t ++ [chr '\n'] →
          f'.rest = s ++ f.rest.drop (t.length + 1) := by
  have hw : window max f = (t ++ [chr '\n']) ++ part := by
    unfold window
    rw [Nat.min_eq_left (by omega)]
    exact hwin
  have hlen := (window_length max f).1
  have hne : window max f ≠ [] := by
    rw [hw]
    simp
  rw [hw] at hlen
  obtain ⟨junk, hmark, hjunk⟩ := @markEnd_lines t part stack.toList hpart (by
    rw [stack.length_toList]
    omega)
  rw [stack.length_toList] at hjunk
  refine ⟨junk, fun x hx =>
    ⟨{ f with pos := ((f.pos : Int) + (((204 : Nat) : Int) - x.lpos.length)).toNat }, ?_,
      fun s hs hsuffix => ?_⟩⟩
  · rw [getFromFile_eq, if_neg hne, hw, hmark, Option.bind_some, hjunk, hx, Option.map_some,
      scanned, hjunk]
  · have hwhole : t ++ [chr '\n'] <+: f.rest.take 200 := ⟨part, hwin.symm⟩
    have hstart := hwhole.trans (List.take_prefix _ _)
    have hle := hsuffix.length_le
    have hpos : ((f.pos : Int) + (((204 : Nat) : Int) - x.lpos.length)).toNat =
        f.pos + ((t ++ [chr '\n']).length - s.length) := by
      rw [List.length_append] at hjunk
      rw [hs, List.length_append]
      omega
    rw [hpos, rest_from hstart hsuffix, List.length_append, List.length_singleton]

/-! ## The lines of a call -/

/-- The text from the middle of a line on. -/
def Inside (s : List Byte) : Prop :=
  ∃ data more, data ≠ [] ∧ (dataText data).length < 200 ∧
    s = dataText data ++ chr '\n' :: fileText more

/-- The lines that go on behind the ones before. -/
def continued (ws : List Line) : List Line := ws.takeWhile (·.address = [])

theorem continued_starts (ws : List Line) : continued ws <+: ws := List.takeWhile_prefix _

theorem lineData_cons (l : Line) (ls : List Line) :
    lineData (l :: ls) = l.data ++ lineData ls := rfl

theorem two_le_fileText (ls : List Line) :
    2 * (lineData ls).length + ls.length ≤ (fileText ls).length := by
  induction ls with
  | nil => exact Nat.zero_le _
  | cons l ls ih =>
    have := two_le_text l
    rw [lineData_cons, fileText_cons, List.length_append, List.length_append, List.length_cons]
    omega

/-- The rest of a line whose byte was refused is short. -/
theorem remaining_inside (l : Line) (h : remaining l.data ≠ []) (ls : List Line) :
    Inside (dataText (remaining l.data) ++ chr '\n' :: fileText ls) ∧
      dataText (remaining l.data) ++ chr '\n' :: fileText ls <:+ fileText (l :: ls) := by
  have hsplit : dataText (accepted l.data) ++ dataText (remaining l.data) = dataText l.data := by
    unfold dataText accepted remaining
    rw [← List.flatMap_append, List.takeWhile_append_dropWhile]
  have hsuffix : dataText (remaining l.data) <:+ lineText l.address l.lead l.data := by
    unfold lineText
    rw [← hsplit]
    exact ⟨l.address.map Digit.char ++ chr ':' :: (l.lead.map Blank.char ++
      dataText (accepted l.data)), by simp⟩
  refine ⟨⟨_, ls, h, Nat.lt_of_le_of_lt hsuffix.length_le l.short, rfl⟩, ?_⟩
  obtain ⟨pre, hpre⟩ := hsuffix
  refine ⟨pre, ?_⟩
  rw [fileText_cons, Line.text, ← hpre]
  simp

/-- The lines that go on are taken up to the first refused byte. -/
theorem lineLoop_lines : ∀ (ws : List Line) {out : List Byte} {addr : Word} {fuel : Nat},
    out ≠ [] → ws.length < fuel → out.length + (lineData ws).length ≤ room →
    ∃ s, lineLoop room fuel ⟨fileText ws ++ tailMark junk, out, addr⟩ =
        some ⟨s ++ tailMark junk,
          out ++ (accepted (lineData (continued ws))).map DataByte.value,
          addr + BitVec.ofNat 32 (accepted (lineData (continued ws))).length⟩ ∧
      s <:+ fileText ws ∧
      (remaining (lineData (continued ws)) = [] → s = fileText (ws.drop (continued ws).length)) ∧
      (remaining (lineData (continued ws)) ≠ [] → Inside s) := by
  intro ws
  induction ws with
  | nil =>
    intro out addr fuel _ hfuel _
    obtain ⟨fuel, rfl⟩ := Nat.exists_eq_succ_of_ne_zero (Nat.ne_of_gt hfuel)
    refine ⟨[], ?_, List.suffix_refl _, fun _ => rfl, fun h => absurd rfl h⟩
    have hnone : accepted (lineData (continued [])) = [] := rfl
    rw [hnone, List.map_nil, List.append_nil, List.length_nil, BitVec.add_zero]
    exact lineLoop_end
  | cons w ws ih =>
    intro out addr fuel hout hfuel hroom
    rw [List.length_cons] at hfuel
    obtain ⟨fuel, rfl⟩ := Nat.exists_eq_succ_of_ne_zero (Nat.ne_of_gt (Nat.zero_lt_of_lt hfuel))
    rw [lineData_cons, List.length_append] at hroom
    rw [fileText_cons, List.append_assoc]
    by_cases hw : w.address = []
    swap
    · have hnone : continued (w :: ws) = [] := List.takeWhile_cons_of_neg (by simpa using hw)
      refine ⟨fileText (w :: ws), ?_, List.suffix_refl _, fun _ => ?_, fun h => ?_⟩
      · rw [lineLoop_waits hw (fileText_nul ws) hout, hnone, fileText_cons, List.append_assoc]
        have hzero : accepted (lineData []) = [] := rfl
        rw [hzero, List.map_nil, List.append_nil, List.length_nil, BitVec.add_zero]
      · rw [hnone]
        rfl
      · rw [hnone] at h
        exact absurd rfl h
    have hcont : continued (w :: ws) = w :: continued ws :=
      List.takeWhile_cons_of_pos (by simpa using hw)
    have hstart : w.start addr = addr := if_pos hw
    rw [lineLoop_line (fileText_nul ws) (.inl hw) (by omega), hstart, hcont, lineData_cons]
    by_cases hr : remaining w.data = []
    · obtain ⟨hacc, hrem⟩ := @accepted_append _ (lineData (continued ws)) hr
      obtain ⟨s, hrun, hsuffix, hall, hin⟩ := @ih (out ++ (accepted w.data).map DataByte.value)
        (addr + BitVec.ofNat 32 (accepted w.data).length) fuel
        (by simp [hout]) (by omega) (by
          rw [accepted_all hr, List.length_append, List.length_map]
          omega)
      refine ⟨s, ?_, hsuffix.trans (List.suffix_append _ _), fun h => ?_, fun h => ?_⟩
      · rw [if_pos hr, hrun, hacc, accepted_all hr, List.map_append, List.append_assoc,
          List.length_append, BitVec.ofNat_add, BitVec.add_assoc]
      · rw [hall (hrem ▸ h)]
        rfl
      · exact hin (hrem ▸ h)
    · obtain ⟨hacc, hrem⟩ := accepted_stops (lineData (continued ws)) hr
      obtain ⟨fuel, rfl⟩ := Nat.exists_eq_succ_of_ne_zero (show fuel ≠ 0 by omega)
      obtain ⟨hinside, hsuffix⟩ := remaining_inside w hr ws
      obtain ⟨x, hx, -, hstay⟩ := @lineLoop_inside room _ junk
        (out ++ (accepted w.data).map DataByte.value)
        (addr + BitVec.ofNat 32 (accepted w.data).length) fuel _ hr (fileText_nul ws)
      refine ⟨_, ?_, hsuffix, fun h => absurd h hrem, fun _ => hinside⟩
      rw [if_neg hr, hx, hstay (by simp [hout]), hacc, List.append_assoc, List.cons_append]

/-- The lines of the call that starts with line `l`. -/
def following (l : Line) (ls : List Line) : List Line :=
  continued (whole (200 - l.text.length) ls)

theorem following_starts (l : Line) (ls : List Line) : following l ls <+: ls :=
  (continued_starts _).trans (whole_starts _ _)

/-- The loops of a call, on its first line and the lines behind it. -/
theorem lineLoop_call (hroom : (lineData (l :: ws)).length ≤ room) (hfuel : ws.length + 2 ≤ fuel)
    (addr : Word) :
    ∃ x, lineLoop room fuel ⟨fileText (l :: ws) ++ tailMark junk, [], addr⟩ = some x ∧
      x.out = (accepted (lineData (l :: continued ws))).map DataByte.value ∧
      (x.out ≠ [] → x.addr = l.start addr + BitVec.ofNat 32 x.out.length ∧
        ∃ s, x.lpos = s ++ tailMark junk ∧ s <:+ fileText (l :: ws) ∧
          (remaining (lineData (l :: continued ws)) = [] →
            s = fileText (ws.drop (continued ws).length)) ∧
          (remaining (lineData (l :: continued ws)) ≠ [] → Inside s)) := by
  obtain ⟨fuel, rfl⟩ := Nat.exists_eq_add_of_le' hfuel
  rw [lineData_cons, List.length_append] at hroom
  rw [fileText_cons, List.append_assoc, ← Nat.add_assoc, lineLoop_line (fileText_nul ws) (.inr rfl)
    (by rw [List.length_nil]; omega), List.nil_append, lineData_cons]
  by_cases hr : remaining l.data = []
  · obtain ⟨hacc, hrem⟩ := @accepted_append _ (lineData (continued ws)) hr
    have hne : (accepted l.data).map DataByte.value ≠ [] := by
      rw [accepted_all hr]
      simpa using l.nonempty
    obtain ⟨s, hrun, hsuffix, hall, hin⟩ := @lineLoop_lines room junk ws _
      (l.start addr + BitVec.ofNat 32 (accepted l.data).length) _ hne
      (show ws.length < fuel + (ws.length + 1) by omega) (by
        rw [accepted_all hr, List.length_map]
        omega)
    refine ⟨_, by rw [if_pos hr]; exact hrun, ?_, fun _ => ⟨?_, s, rfl,
      hsuffix.trans (List.suffix_append _ _), fun h => hall (hrem ▸ h), fun h => hin (hrem ▸ h)⟩⟩
    · rw [hacc, accepted_all hr, List.map_append]
    · simp only [List.length_append, List.length_map]
      rw [BitVec.ofNat_add, BitVec.add_assoc]
  · obtain ⟨hacc, hrem⟩ := accepted_stops (lineData (continued ws)) hr
    obtain ⟨hinside, hsuffix⟩ := remaining_inside l hr ws
    obtain ⟨x, hx, hout, hstay⟩ := @lineLoop_inside room _ junk
      ((accepted l.data).map DataByte.value)
      (l.start addr + BitVec.ofNat 32 (accepted l.data).length) (fuel + ws.length) _ hr
      (fileText_nul ws)
    refine ⟨x, by rw [if_neg hr]; exact hx, by rw [hout, hacc], fun hne => ?_⟩
    rw [hout] at hne
    rw [hstay hne]
    refine ⟨by rw [List.length_map], _, ?_, hsuffix, fun h => absurd h hrem, fun _ => hinside⟩
    simp

/-! ## Calls -/

/-- A call at a line takes the bytes up to the first refused one. -/
theorem getFromFile_line (hmax : 100 ≤ max) (stack : Vector Byte 204) (addr : Word) {f : File}
    (hrest : f.rest = fileText (l :: ls)) :
    ∃ addr' f', ProcessGetFromFile byteString stack.toList max addr max f =
        some (((accepted (lineData (l :: following l ls))).length : Int),
          (accepted (lineData (l :: following l ls))).map DataByte.value, addr', f') ∧
      (accepted (lineData (l :: following l ls)) ≠ [] →
        addr' = l.start addr +
          BitVec.ofNat 32 (accepted (lineData (l :: following l ls))).length ∧
        (remaining (lineData (l :: following l ls)) = [] →
          f'.rest = fileText (ls.drop (following l ls).length)) ∧
        (remaining (lineData (l :: following l ls)) ≠ [] → Inside f'.rest)) := by
  obtain ⟨ws, hws⟩ : ∃ ws, ws = whole (200 - l.text.length) ls := ⟨_, rfl⟩
  obtain ⟨part, hpart, hnl⟩ := take_fileText 200 (l :: ls)
  have hwhole : whole 200 (l :: ls) = l :: ws := by
    rw [whole, if_pos l.text_le, hws]
  obtain ⟨behind, hbehind⟩ := whole_starts (200 - l.text.length) ls
  rw [← hws] at hbehind
  have hsize := whole_length 200 (l :: ls)
  rw [hwhole] at hpart hsize
  have hcount := two_le_fileText (l :: ws)
  rw [List.length_cons] at hcount
  obtain ⟨t, ht⟩ := fileText_ends (List.cons_ne_nil l ws)
  obtain ⟨junk, hcall⟩ := @getFromFile_window _ hmax stack addr f t part
    (by rw [hrest, hpart, ht]) hnl
  obtain ⟨x, hx, hout, hmore⟩ := @lineLoop_call max 205 junk l ws (by omega) (by omega) addr
  rw [ht] at hx
  obtain ⟨f', hrun, hpos⟩ := hcall x hx
  have hfollow : continued ws = following l ls := by
    rw [hws]
    rfl
  rw [hfollow] at hout hmore
  rw [hout, List.length_map] at hrun
  refine ⟨x.addr, f', hrun, fun hne => ?_⟩
  obtain ⟨haddr, s, hs, hsuffix, hall, hin⟩ := hmore (by rw [hout]; simpa using hne)
  rw [hout, List.length_map] at haddr
  have hleft : f.rest.drop (t.length + 1) = fileText behind := by
    have hlen : (fileText (l :: ws)).length = t.length + 1 := by
      rw [ht, List.length_append, List.length_singleton]
    rw [hrest, ← hbehind, ← List.cons_append, fileText_append]
    exact List.drop_left' hlen
  rw [hpos s hs (ht ▸ hsuffix), hleft]
  refine ⟨haddr, fun h => ?_, fun h => ?_⟩
  · have hle := (hfollow ▸ continued_starts ws : following l ls <+: ws).length_le
    rw [hall h, ← fileText_append, ← List.drop_append_of_le_length hle, hbehind]
  · obtain ⟨data, more, hdata, hlen, rfl⟩ := hin h
    refine ⟨data, more ++ behind, hdata, hlen, ?_⟩
    rw [fileText_append, List.append_assoc, List.cons_append]

/-- A call in the middle of a line finds nothing. -/
theorem getFromFile_inside (hmax : 100 ≤ max) (stack : Vector Byte 204) (addr : Word) {f : File}
    (h : Inside f.rest) :
    ∃ addr' f', ProcessGetFromFile byteString stack.toList max addr max f =
      some (0, [], addr', f') := by
  obtain ⟨data, more, hdata, hlen, hrest⟩ := h
  obtain ⟨part, hpart, hnl⟩ := take_fileText (200 - ((dataText data).length + 1)) more
  obtain ⟨ws, hws⟩ : ∃ ws, ws = whole (200 - ((dataText data).length + 1)) more := ⟨_, rfl⟩
  rw [← hws] at hpart
  have hwin : f.rest.take 200 = (dataText data ++ chr '\n' :: fileText ws) ++ part := by
    have hone : dataText data ++ chr '\n' :: fileText more =
        (dataText data ++ [chr '\n']) ++ fileText more := by simp
    have hle : (dataText data ++ [chr '\n']).length = (dataText data).length + 1 := by simp
    rw [hrest, hone, List.take_append, List.take_of_length_le (by omega), hle, hpart]
    simp
  obtain ⟨t, ht⟩ : ∃ t, dataText data ++ chr '\n' :: fileText ws = t ++ [chr '\n'] := by
    by_cases h : ws = []
    · exact ⟨dataText data, by rw [h]; rfl⟩
    · obtain ⟨t, ht⟩ := fileText_ends h
      exact ⟨dataText data ++ chr '\n' :: t, by rw [ht]; simp⟩
  obtain ⟨junk, hcall⟩ := @getFromFile_window _ hmax stack addr f t part
    (by rw [hwin, ht]) hnl
  obtain ⟨x, hx, hout, -⟩ := @lineLoop_inside max _ junk [] addr 204 _ hdata (fileText_nul ws)
  rw [← ht, List.append_assoc, List.cons_append] at hcall
  obtain ⟨f', hrun, -⟩ := hcall x hx
  rw [hout] at hrun
  exact ⟨x.addr, f', hrun⟩

theorem getFromFile_end (stack : Vector Byte 204) (addr : Word) {f : File} (h : f.rest = []) :
    ProcessGetFromFile byteString stack.toList max addr max f = some (0, [], addr, f) := by
  have hw : window max f = [] := by
    unfold window
    rw [show f.content.drop f.pos = [] from h, List.take_nil]
  rw [getFromFile_eq, if_pos hw]

end dlxos
