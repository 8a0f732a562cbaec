-- The two branches of `TrapProcessCreateHandler`. The one for the system copies its
-- array `name` over the first string, the wrong way round, and puts each string at
-- the start of `allargs`.
import DlxOs.ArgumentVector
import Mathlib.Data.List.TakeWhile

namespace dlxos

open Function

variable {ram : Ram} {p : Word} {bytes buf : List Byte} {s : List Byte} {i n : Nat}
  {strings : List (List Byte)}

/-! ## The copy of the name -/

/-- The memory of the system, at its own addresses. -/
def systemMemory (ram : Ram) : UserMemory := fun a => some (ram a)

/-- The bytes up to the first NUL. -/
def upToNul : List Byte → List Byte
  | [] => []
  | c :: cs => if c = 0 then [c] else c :: upToNul cs

/-- The memory after the bytes were stored from an address on. -/
def poke : Ram → Word → List Byte → Ram
  | ram, _, [] => ram
  | ram, p, v :: vs => poke (update ram p v) (p + 1) vs

theorem dstrncpy_eq (n : Nat) : ∀ {p : Word} {src : List Byte} {ram : Ram}, n ≤ src.length →
    dstrncpy n p src ram = some (poke ram p (upToNul (src.take n))) := by
  induction n with
  | zero => exact fun _ => rfl
  | succ n ih =>
    intro p src ram hlen
    cases src with
    | nil => exact absurd hlen (Nat.not_succ_le_zero n)
    | cons c src =>
      rw [List.length_cons] at hlen
      rw [dstrncpy, List.take_succ_cons, upToNul]
      by_cases hc : c = 0
      · rw [if_pos hc, if_pos hc]
        rfl
      · rw [if_neg hc, if_neg hc, ih (by omega)]
        rfl

theorem poke_eq (bytes : List Byte) : ∀ {ram : Ram} {p : Word},
    systemMemory (poke ram p bytes) = putBytes (systemMemory ram) p bytes := by
  induction bytes with
  | nil => exact rfl
  | cons v bytes ih =>
    intro ram p
    have hupdate : systemMemory (update ram p v) = update (systemMemory ram) p (some v) := by
      funext a
      unfold systemMemory
      by_cases ha : a = p
      · subst ha
        rw [update_self, update_self]
      · rw [update_of_ne ha, update_of_ne ha]
    rw [poke, ih, hupdate]
    rfl

theorem poke_reads (h : bytes.length ≤ 2 ^ 32) :
    Reads (systemMemory (poke ram p bytes)) p bytes := by
  rw [poke_eq]
  exact putBytes_reads bytes h fun i _ => rfl

/-- Nothing changes where the bytes stand there already. -/
theorem poke_same (bytes : List Byte) : ∀ {ram : Ram} {p : Word},
    Reads (systemMemory ram) p bytes → poke ram p bytes = ram := by
  induction bytes with
  | nil => exact fun _ => rfl
  | cons v bytes ih =>
    intro ram p h
    have hv : ram p = v := Option.some.inj h.head
    have hsame : update ram p v = ram := by
      rw [← hv, update_eq_self]
    rw [poke, hsame]
    exact ih h.tail

theorem upToNul_string {rest : List Byte} (h0 : 0 ∉ s) : upToNul (s ++ 0 :: rest) = s ++ [0] := by
  induction s with
  | nil => rfl
  | cons v s ih =>
    have hv : v ≠ 0 := fun he => h0 (by simp [he])
    rw [List.cons_append, upToNul, if_neg hv, ih fun hm => h0 (List.mem_cons_of_mem v hm)]
    rfl

theorem upToNul_whole (h0 : 0 ∉ bytes) : upToNul bytes = bytes := by
  induction bytes with
  | nil => rfl
  | cons v bytes ih =>
    have hv : v ≠ 0 := fun he => h0 (by simp [he])
    rw [upToNul, if_neg hv, ih fun hm => h0 (List.mem_cons_of_mem v hm)]

theorem Reads.of_prefix {mem : UserMemory} {more : List Byte} (h : Reads mem p more)
    (hp : bytes <+: more) : Reads mem p bytes := by
  obtain ⟨rest, rfl⟩ := hp
  exact h.append.1

/-- Two texts that stand at one address agree. -/
theorem Reads.agree {mem : UserMemory} {more : List Byte} (h : Reads mem p bytes)
    (h' : Reads mem p more) (hle : bytes.length ≤ more.length) : bytes <+: more := by
  rw [List.prefix_iff_getElem?]
  intro i hi
  have hmore : more[i]? = some more[i] := List.getElem?_eq_getElem (by omega)
  have hbytes : bytes[i]? = some bytes[i] := List.getElem?_eq_getElem hi
  rw [hmore, ← h' i _ hmore, h i _ hbytes]

/-- The first string stays as it was just when the array started with it. -/
theorem name_kept_iff {name : List Byte} (h0 : 0 ∉ s) (hs : s.length ≤ 99)
    (hname : name.length = 100) :
    Reads (systemMemory (poke ram p (upToNul name))) p (s ++ [0]) ↔ s ++ [0] <+: name := by
  have hend : (s ++ [0]).length = s.length + 1 := by
    rw [List.length_append, List.length_singleton]
  constructor
  · intro hkept
    by_cases hz : 0 ∈ name
    · obtain ⟨t, rest, rfl, ht⟩ := List.eq_append_cons_of_mem hz
      have hlen : (t ++ [0]).length = t.length + 1 := by
        rw [List.length_append, List.length_singleton]
      have htlen : t.length + 1 ≤ 100 := by
        rw [← hname, List.length_append, List.length_cons]
        omega
      rw [upToNul_string ht] at hkept
      have hpoked : Reads (systemMemory (poke ram p (t ++ [0]))) p (t ++ [0]) :=
        poke_reads (by omega)
      have hpre : t ++ [0] <+: t ++ 0 :: rest := ⟨rest, by simp⟩
      rcases Nat.lt_or_ge t.length s.length with hlt | hge
      · -- the string would have a NUL before its end
        exfalso
        have hat := hkept.of_prefix (List.prefix_append s [0])
        have h1 := hpoked t.length 0 (by simp)
        have h2 := hat t.length s[t.length] (List.getElem?_eq_getElem hlt)
        rw [h1] at h2
        exact h0 (Option.some.inj h2 ▸ List.getElem_mem hlt)
      · exact (hkept.agree hpoked (by omega)).trans hpre
    · rw [upToNul_whole hz] at hkept
      have hpoked : Reads (systemMemory (poke ram p name)) p name :=
        poke_reads (by omega)
      exact hkept.agree hpoked (by omega)
  · rintro ⟨rest, rfl⟩
    rw [List.append_assoc, List.singleton_append, upToNul_string h0]
    exact poke_reads (by omega)

/-! ## The loop of the system branch -/

theorem dstrlen_string {fuel : Nat} : ∀ {s : List Byte} {p : Word}, 0 ∉ s →
    Reads (systemMemory ram) p (s ++ [0]) → s.length < fuel →
    dstrlen ram fuel p = some s.length := by
  induction fuel with
  | zero => exact fun _ _ h => absurd h (Nat.not_lt_zero _)
  | succ fuel ih =>
    intro s p h0 hr hlen
    cases s with
    | nil =>
      have hz : ram p = 0 := Option.some.inj hr.head
      rw [dstrlen, if_pos hz]
      rfl
    | cons v s =>
      have hv : ram p = v := Option.some.inj hr.head
      have hne : v ≠ 0 := fun he => h0 (by simp [he])
      rw [List.length_cons] at hlen
      rw [dstrlen, hv, if_neg hne, ih (fun hm => h0 (List.mem_cons_of_mem v hm)) hr.tail (by omega)]
      rfl

theorem dstrcpy_string {rest : List Byte} : ∀ {s buf : List Byte} {i : Nat}, 0 ∉ s →
    i + s.length < buf.length →
    dstrcpy (s ++ 0 :: rest) i buf = some (overlay buf i (s ++ [0])) := by
  intro s
  induction s with
  | nil =>
    intro buf i _ hi
    rw [List.length_nil] at hi
    have hone : overlay buf i ([] ++ [0]) = buf.set i 0 := by
      rw [List.nil_append, ← overlay_set (by omega), overlay_nil]
    rw [hone, List.nil_append, dstrcpy, store_eq (by omega)]
    rfl
  | cons v s ih =>
    intro buf i h0 hi
    have hv : v ≠ 0 := fun he => h0 (by simp [he])
    rw [List.length_cons] at hi
    rw [List.cons_append, dstrcpy, store_eq (by omega)]
    simp only [Option.bind_eq_bind, Option.bind_some, if_neg hv]
    rw [ih (fun hm => h0 (List.mem_cons_of_mem v hm)) (by rw [List.length_set]; omega),
      overlay_set (by omega)]
    rfl

theorem Reads.userBytes {mem : UserMemory} (h : Reads mem p bytes) (hn : bytes.length ≤ n) :
    bytes <+: userBytes mem p n := by
  rw [List.prefix_iff_getElem?]
  intro i hi
  rw [userBytes_getElem? n h (by omega) hi, List.getElem?_eq_getElem hi]

theorem overlay_get {i : Nat} (hi : i < bytes.length) : (overlay buf 0 bytes)[i]? = bytes[i]? := by
  unfold overlay
  rw [List.take_zero, List.nil_append, List.getElem?_append_left hi]

theorem set_same {v : Byte} (h : buf[i]? = some v) : buf.set i v = buf := by
  obtain ⟨hlt, rfl⟩ := List.getElem?_eq_some_iff.mp h
  exact List.set_getElem_self hlt

/-- `allargs` after the strings were put there, each over the one before. -/
def piled (allargs : List Byte) (strings : List (List Byte)) : List Byte :=
  strings.foldl (fun buf s => overlay buf 0 (s ++ [0])) allargs

theorem systemLoop_reads {args : List Byte} (left : Nat) : ∀ {j : Nat} {ps : List Word}
    {strings : List (List Byte)} {allargs : List Byte},
    (∀ t w, t < left → (ps ++ [0])[t]? = some w → wordAt args (j + t) = some w) →
    (∀ p ∈ ps, p ≠ 0) →
    List.Forall₂ (fun p s => 0 ∉ s ∧ Reads (systemMemory ram) p (s ++ [0])) ps strings →
    (∀ s ∈ strings, s.length ≤ 100) → allargs.length = SIZE_ARG_BUFF →
    systemLoop ram args left j allargs = .ok (piled allargs (strings.take left)) := by
  induction left with
  | zero => exact fun _ _ _ _ _ => rfl
  | succ left ih =>
    intro j ps strings allargs hargs hne htexts hshort hlen
    cases htexts with
    | nil =>
      have hw : wordAt args j = some 0 := hargs 0 0 (Nat.succ_pos left) rfl
      unfold systemLoop
      rw [hw]
      rfl
    | @cons p s ps ss hp hrest =>
      obtain ⟨h0, hr⟩ := hp
      have hw : wordAt args j = some p := hargs 0 p (Nat.succ_pos left) rfl
      have hp0 : p ≠ 0 := hne p List.mem_cons_self
      have hs := hshort s List.mem_cons_self
      have hend : (s ++ [0]).length = s.length + 1 := by
        rw [List.length_append, List.length_singleton]
      have hk := @dstrlen_string _ (2 ^ 32) _ _ h0 hr (by omega)
      have hin : 0 + s.length < allargs.length := by
        rw [hlen]
        simp only [SIZE_ARG_BUFF]
        omega
      obtain ⟨rest, hsrc⟩ := hr.userBytes (n := SIZE_ARG_BUFF + 1) (by
        rw [hend]
        simp only [SIZE_ARG_BUFF]
        omega)
      have hcopy : dstrcpy (userBytes (fun a => some (ram a)) p (SIZE_ARG_BUFF + 1)) 0 allargs =
          some (overlay allargs 0 (s ++ [0])) := by
        have hsplit : userBytes (fun a => some (ram a)) p (SIZE_ARG_BUFF + 1) = s ++ 0 :: rest := by
          rw [← List.singleton_append, ← List.append_assoc]
          exact hsrc.symm
        rw [hsplit]
        exact dstrcpy_string h0 hin
      have hover : (overlay allargs 0 (s ++ [0])).length = SIZE_ARG_BUFF := by
        rw [overlay_length (by omega), hlen]
      have hlast : (overlay allargs 0 (s ++ [0]))[s.length]? = some 0 := by
        rw [overlay_get (by omega)]
        simp
      have hstore : store (overlay allargs 0 (s ++ [0])) s.length 0 =
          some (overlay allargs 0 (s ++ [0])) := by
        rw [store_eq (List.getElem?_eq_some_iff.mp hlast).1, set_same hlast]
      have hstep : systemLoop ram args (left + 1) j allargs =
          systemLoop ram args left (j + 1) (overlay allargs 0 (s ++ [0])) := by
        rw [systemLoop, hw]
        simp only [inside, bind, Except.bind, if_neg hp0, hk, if_neg (Nat.not_lt.mpr hs), hcopy,
          hstore]
      rw [hstep, List.take_succ_cons]
      refine ih (fun t w ht hw' => ?_) (fun q hq => hne q (List.mem_cons_of_mem p hq)) hrest
        (fun x hx => hshort x (List.mem_cons_of_mem s hx)) hover
      rw [Nat.add_assoc, Nat.add_comm 1 t]
      exact hargs (t + 1) w (Nat.succ_lt_succ ht) hw'

/-! ## The two forms of `allargs` -/

theorem piled_get : ∀ {strings : List (List Byte)} {buf : List Byte} {i : Nat} {v : Byte},
    (piled buf strings)[i]? = some v → v ≠ 0 →
    buf[i]? = some v ∨ ∃ s ∈ strings, i < s.length := by
  intro strings
  induction strings with
  | nil => exact fun h _ => .inl h
  | cons s strings ih =>
    intro buf i v h hv
    rcases @ih (overlay buf 0 (s ++ [0])) _ _ h hv with hover | ⟨t, ht, hi⟩
    · by_cases hi : i < s.length
      · exact .inr ⟨s, List.mem_cons_self, hi⟩
      · have hend : (s ++ [0]).length = s.length + 1 := by
          rw [List.length_append, List.length_singleton]
        by_cases he : i = s.length
        · subst he
          rw [overlay_get (by omega)] at hover
          exact absurd (by simpa using hover) hv.symm
        · left
          unfold overlay at hover
          rw [List.take_zero, List.nil_append, Nat.zero_add,
            List.getElem?_append_right (by omega), List.getElem?_drop, hend] at hover
          rwa [show s.length + 1 + (i - (s.length + 1)) = i by omega] at hover
    · exact .inr ⟨t, List.mem_cons_of_mem s ht, hi⟩

/-- Zeros that are stored over zeros. -/
theorem overlay_zeros {buf : List Byte} (hbuf : ∀ i < 100, buf[i]? = some 0) :
    ∀ {bytes : List Byte} {i : Nat}, (∀ v ∈ bytes, v = 0) → i + bytes.length ≤ 100 →
      overlay buf i bytes = buf := by
  intro bytes
  induction bytes with
  | nil => exact fun _ _ => overlay_nil buf _
  | cons v bytes ih =>
    intro i hz hlen
    rw [List.length_cons] at hlen
    have hget := hbuf i (by omega)
    have hv : v = 0 := hz v List.mem_cons_self
    subst hv
    rw [← overlay_set (List.getElem?_eq_some_iff.mp hget).1, set_same hget]
    exact ih (fun w hw => hz w (List.mem_cons_of_mem 0 hw)) (by omega)

/-- A list of strings with a string in it that is not empty has a last one. -/
theorem last_string (h : ¬ ∀ s ∈ strings, s = []) :
    ∃ xs s ys, strings = xs ++ s :: ys ∧ s ≠ [] ∧ ∀ t ∈ ys, t = [] := by
  induction strings with
  | nil => exact absurd (fun s hs => nomatch hs) h
  | cons s strings ih =>
    by_cases hall : ∀ t ∈ strings, t = []
    · refine ⟨[], s, strings, rfl, fun hs => h fun t ht => ?_, hall⟩
      rcases List.mem_cons.mp ht with rfl | ht
      · exact hs
      · exact hall t ht
    · obtain ⟨xs, u, ys, rfl, hu, hys⟩ := ih hall
      exact ⟨s :: xs, u, ys, rfl, hu, hys⟩

theorem length_lt_packed {xs : List (List Byte)} {t : List Byte} (ht : t ∈ xs) :
    t.length + 1 ≤ (packed xs).length := by
  obtain ⟨as, bs, rfl⟩ := List.append_of_mem ht
  rw [packed_append, List.length_append, packed_length_cons]
  omega

theorem packed_zeros (hall : ∀ s ∈ strings, s = []) : ∀ v ∈ packed strings, v = 0 := by
  intro v hv
  obtain ⟨s, hs, hvs⟩ := List.mem_flatMap.mp hv
  rw [hall s hs] at hvs
  simpa using hvs

theorem piled_empty {z : List Byte} (hz : ∀ i < 100, z[i]? = some 0) :
    ∀ {strings : List (List Byte)}, (∀ s ∈ strings, s = []) → piled z strings = z := by
  intro strings hall
  induction strings with
  | nil => rfl
  | cons s strings ih =>
    have hs := hall s List.mem_cons_self
    subst hs
    have hone : overlay z 0 ([] ++ [0]) = z := overlay_zeros hz (by simp) (by simp)
    exact (congrArg (fun b => piled b strings) hone).trans
      (ih fun s hs => hall s (List.mem_cons_of_mem [] hs))

/-- An empty last string leaves a zero in the first byte. -/
theorem piled_head_zero (z : List Byte) (strings : List (List Byte)) :
    (piled z (strings ++ [[]]))[0]? = some 0 := by
  unfold piled
  rw [List.foldl_append]
  exact @overlay_get [0] _ _ (by simp)

/-- The last byte of a string, where the strings stand one after another. -/
theorem packed_last_byte {xs ys : List (List Byte)} {s : List Byte} (h0 : 0 ∉ s) (hs : s ≠ []) :
    ∃ v, v ≠ 0 ∧ (packed (xs ++ s :: ys))[(packed xs).length + (s.length - 1)]? = some v := by
  have hpos : 0 < s.length := List.length_pos_of_ne_nil hs
  obtain ⟨v, hv⟩ : ∃ v, s[s.length - 1]? = some v :=
    ⟨_, List.getElem?_eq_getElem (by omega)⟩
  refine ⟨v, fun he => h0 (he ▸ List.mem_of_getElem? hv), ?_⟩
  rw [packed_append, packed_cons, List.append_assoc, List.singleton_append,
    List.getElem?_append_right (by omega), Nat.add_sub_cancel_left,
    List.getElem?_append_left (by omega)]
  exact hv

/-- The last byte of the last string that is not empty is in both forms only where
that string is the first one. -/
theorem last_is_first {z : List Byte} {xs ys : List (List Byte)} {s : List Byte}
    (hz : ∀ i < 100, z[i]? = some 0) (h0 : 0 ∉ s) (hs : s ≠ []) (hys : ∀ t ∈ ys, t = [])
    (hfits : (packed (xs ++ s :: ys)).length ≤ 100)
    (hget : ∀ i < 100,
      (overlay z 0 (packed (xs ++ s :: ys)))[i]? = (piled z (xs ++ s :: ys))[i]?) :
    xs = [] := by
  have hspos : 0 < s.length := List.length_pos_of_ne_nil hs
  obtain ⟨v, hv0, hv⟩ := @packed_last_byte xs ys s h0 hs
  have hlt := (List.getElem?_eq_some_iff.mp hv).1
  have hpiled := hget ((packed xs).length + (s.length - 1)) (by omega)
  rw [overlay_get hlt, hv] at hpiled
  rcases piled_get hpiled.symm hv0 with hbad | ⟨t, ht, htlen⟩
  · rw [hz _ (by omega)] at hbad
    exact absurd (Option.some.inj hbad).symm hv0
  · rcases List.mem_append.mp ht with hx | ht
    · have := length_lt_packed hx
      omega
    · rcases List.mem_cons.mp ht with rfl | hy
      · have := length_le_packed xs
        exact List.eq_nil_of_length_eq_zero (by omega)
      · rw [hys t hy] at htlen
        exact absurd htlen (Nat.not_lt_zero _)

/-- The strings one over another are the strings one after another only where
nothing is lost. -/
theorem piled_eq_iff {z : List Byte} (hz : ∀ i < 100, z[i]? = some 0)
    (hnonzero : ∀ s ∈ strings, 0 ∉ s) (hfits : (packed strings).length ≤ 100) :
    (overlay z 0 (packed strings)).take 100 = (piled z strings).take 100 ↔
      strings.length ≤ 1 ∨ ∀ s ∈ strings, s = [] := by
  constructor
  · intro heq
    by_contra hcon
    push Not at hcon
    obtain ⟨hlen, hsome⟩ := hcon
    have hget : ∀ i < 100, (overlay z 0 (packed strings))[i]? = (piled z strings)[i]? := by
      intro i hi
      have := congrArg (fun l => l[i]?) heq
      simpa [List.getElem?_take_of_lt hi] using this
    obtain ⟨xs, s, ys, rfl, hs, hys⟩ := last_string (by push Not; exact hsome)
    have h0 : 0 ∉ s := hnonzero s (by simp)
    obtain rfl := last_is_first hz h0 hs hys hfits hget
    -- only the first string is not empty, and the last one is stored over it
    have hne : ys ≠ [] := by
      rintro rfl
      simp at hlen
    obtain ⟨ys, u, rfl⟩ := (List.eq_nil_or_concat' ys).resolve_left hne
    have hu : u = [] := hys u (by simp)
    subst hu
    obtain ⟨w, t, rfl⟩ := List.exists_cons_of_ne_nil hs
    have hfirst := hget 0 (by omega)
    rw [List.nil_append, ← List.cons_append, piled_head_zero,
      overlay_get (by simp [packed])] at hfirst
    have hw : w = 0 := by simpa [packed] using hfirst
    exact h0 (by simp [hw])
  · rintro (hlen | hall)
    · rcases strings with _ | ⟨s, _ | ⟨t, rest⟩⟩
      · simp [packed, piled]
      · simp [packed, piled]
      · simp at hlen
    · rw [piled_empty hz hall, overlay_zeros hz (packed_zeros hall) (by omega)]

/-! ## The two branches -/

variable {pcb : PCB} {trapArgs userArgs systemArgs : Word} {ps userPs systemPs : List Word}

/-- The memory after the system branch has copied its array `name`. -/
def overwritten (ram : Ram) (ps : List Word) (a : Arrays) : Ram :=
  poke ram (namePointer ps) (upToNul a.name)

theorem ArgVector.systemHandler (h : ArgVector (systemMemory ram) trapArgs ps strings)
    (a : Arrays) : TrapProcessCreateHandler pcb a trapArgs true ram =
      (systemLoop (overwritten ram ps a) (argsArray (systemMemory ram) trapArgs a.args) 11 0
        (zeroed a.allargs)).map fun allargs =>
          ⟨a.name.set 99 0, allargs.set (SIZE_ARG_BUFF - 1) 0, overwritten ram ps a⟩ := by
  have hword : dlxos.wordAt (argsArray (systemMemory ram) trapArgs a.args) 0 =
      some (namePointer ps) := by
    refine h.wordAt (by decide) ?_
    cases ps <;> rfl
  have hall : a.name.take 100 = a.name := List.take_of_length_le (Nat.le_of_eq a.name_length)
  have hcopy : dstrncpy 100 (namePointer ps) a.name ram = some (overwritten ram ps a) := by
    rw [dstrncpy_eq 100 (Nat.le_of_eq a.name_length.symm), hall]
    rfl
  unfold argsArray systemMemory at hword ⊢
  unfold TrapProcessCreateHandler zeroed
  simp only [if_true, hword, inside, bind, Except.bind, hcopy]
  rcases systemLoop _ _ 11 0 _ with e | r <;> rfl

/-- The characters of the array up to its NUL. -/
def cText (name : List Byte) : List Byte := name.takeWhile (· ≠ 0)

theorem cText_string {rest : List Byte} (h0 : 0 ∉ s) : cText (s ++ 0 :: rest) = s := by
  unfold cText
  rw [List.takeWhile_append_of_pos fun v hv => by
    simpa using fun he : v = 0 => h0 (he ▸ hv)]
  simp

theorem cText_whole (h0 : 0 ∉ s) : cText s = s := by
  unfold cText
  rw [List.takeWhile_eq_self_iff]
  intro v hv
  simpa using fun he : v = 0 => h0 (he ▸ hv)

theorem cText_append_nul (l : List Byte) : cText (l ++ [0]) = cText l := by
  by_cases h0 : 0 ∈ l
  · obtain ⟨t, rest, rfl, ht⟩ := List.eq_append_cons_of_mem h0
    rw [List.append_assoc, List.cons_append, cText_string ht, cText_string ht]
  · rw [cText_string h0, cText_whole h0]

/-- What the array `name` of the system branch must hold before the call: the name
of the program. -/
def NameReady (mem : UserMemory) (name : List Byte) : List (List Byte) → Prop
  | [] => cText (name.take 99) = (textAt mem 0).take 99
  | s :: _ => s ++ [0] <+: name

/-- The branches hand over the same name and the same 100 bytes, and leave the
strings of the caller as they are. -/
structure ModesAgree (pcb : PCB) (strings : List (List Byte)) (userPs systemPs : List Word)
    (u s : Handed) : Prop where
  name : cText u.name = cText s.name
  allargs : u.allargs.take 100 = s.allargs.take 100
  userStrings : List.Forall₂ (fun p t => Reads (userMemory pcb u.ram) p (t ++ [0])) userPs strings
  systemStrings : List.Forall₂ (fun p t => Reads (systemMemory s.ram) p (t ++ [0])) systemPs strings

theorem forall₂_zip {α β : Type} {P : β → Prop} {R : α → β → Prop} {xs : List α} {ys : List β}
    (hP : ∀ y ∈ ys, P y) (h : List.Forall₂ R xs ys) :
    List.Forall₂ (fun x y => P y ∧ R x y) xs ys := by
  induction h with
  | nil => exact .nil
  | cons hxy _ ih =>
    exact .cons ⟨hP _ List.mem_cons_self, hxy⟩ (ih fun y hy => hP y (List.mem_cons_of_mem _ hy))

/-- Where the strings are as before, the system branch piles them up. -/
theorem ArgVector.systemHandler_kept (h : ArgVector (systemMemory ram) trapArgs ps strings)
    (hmax : strings.length ≤ 11) (hfits : (packed strings).length ≤ 100) (a : Arrays)
    (hkept : List.Forall₂ (fun p t => Reads (systemMemory (overwritten ram ps a)) p (t ++ [0]))
      ps strings) :
    TrapProcessCreateHandler pcb a trapArgs true ram = .ok ⟨a.name.set 99 0,
      (piled (zeroed a.allargs) strings).set (SIZE_ARG_BUFF - 1) 0, overwritten ram ps a⟩ := by
  have hloop := @systemLoop_reads (overwritten ram ps a)
    (argsArray (systemMemory ram) trapArgs a.args) 11 0 _ _ _ (fun t w ht hw => by
      rw [Nat.zero_add]
      exact h.wordAt (by simp only [MAX_ARGS]; omega) hw) h.pointers
    (forall₂_zip h.nonzero hkept) (fun s hs => by
      have := length_lt_packed hs
      omega) (zeroed_length a)
  rw [h.systemHandler, hloop, List.take_of_length_le hmax]
  rfl

theorem overlay_take {z z' bytes : List Byte} (hz : z.take 100 = z'.take 100)
    (h : bytes.length ≤ 100) : (overlay z 0 bytes).take 100 = (overlay z' 0 bytes).take 100 := by
  have key : ∀ l : List Byte, (overlay l 0 bytes).take 100 =
      bytes ++ (l.take 100).drop bytes.length := by
    intro l
    unfold overlay
    rw [List.take_zero, List.nil_append, Nat.zero_add, List.take_append, List.take_of_length_le h,
      List.drop_take]
  rw [key, key, hz]

theorem zeroed_take (allargs : List Byte) : (zeroed allargs).take 100 = List.replicate 100 0 := by
  unfold zeroed
  exact List.take_left' List.length_replicate

theorem packed_length_head {ss : List (List Byte)} (hfits : (packed (s :: ss)).length ≤ 100) :
    s.length ≤ 99 := by
  rw [packed_length_cons] at hfits
  omega

/-- Where the array holds the name, the copy changes nothing. -/
theorem overwritten_same {a : Arrays} (h : ArgVector (systemMemory ram) trapArgs ps strings)
    (hne : strings ≠ []) (hready : NameReady mem a.name strings) : overwritten ram ps a = ram := by
  obtain ⟨s, ss, rfl⟩ := List.exists_cons_of_ne_nil hne
  have htexts := h.texts
  cases htexts with
  | cons hp _ =>
    obtain ⟨rest, hname⟩ := hready
    have hcopy : upToNul a.name = s ++ [0] := by
      rw [← hname, List.append_assoc, List.singleton_append, upToNul_string hp.1]
    unfold overwritten
    rw [hcopy]
    exact poke_same _ hp.2

theorem kept_nameReady {a : Arrays} (h : ArgVector (systemMemory ram) trapArgs ps strings)
    (hne : strings ≠ []) (hfits : (packed strings).length ≤ 100)
    (hkept : List.Forall₂ (fun p t => Reads (systemMemory (overwritten ram ps a)) p (t ++ [0]))
      ps strings) : NameReady mem a.name strings := by
  obtain ⟨s, ss, rfl⟩ := List.exists_cons_of_ne_nil hne
  have htexts := h.texts
  cases htexts with
  | cons hp _ =>
    cases hkept with
    | cons hk _ => exact (name_kept_iff hp.1 (packed_length_head hfits) a.name_length).mp hk

/-! ## Both branches on one list -/

theorem ArgVector.systemHandler_ok {a : Arrays} {s : Handed}
    (h : ArgVector (systemMemory ram) trapArgs ps strings)
    (hrun : TrapProcessCreateHandler pcb a trapArgs true ram = .ok s) :
    s.name = a.name.set 99 0 ∧ s.ram = overwritten ram ps a := by
  rw [h.systemHandler] at hrun
  rcases hloop : systemLoop (overwritten ram ps a) (argsArray (systemMemory ram) trapArgs a.args)
      11 0 (zeroed a.allargs) with e | allargs
  · rw [hloop] at hrun
    cases hrun
  · rw [hloop] at hrun
    cases hrun
    exact ⟨rfl, rfl⟩

/-- The name that the user branch hands over. -/
theorem ArgVector.userName (h : ArgVector (userMemory pcb ram) userArgs userPs strings)
    (rest : List Byte) : cText ((textAt (userMemory pcb ram) (namePointer userPs)).take 99 ++
      0 :: rest) = (textAt (userMemory pcb ram) (namePointer userPs)).take 99 :=
  cText_string fun hm => h.text.1.nonzero (List.mem_of_mem_take hm)

theorem cText_set (hs : s.length ≤ 99) (h0 : 0 ∉ s) {name : List Byte} (h : s ++ [0] <+: name) :
    cText (name.set 99 0) = s := by
  obtain ⟨rest, rfl⟩ := h
  rw [List.append_assoc, List.singleton_append, List.set_append_right _ _ hs]
  rcases Nat.eq_or_lt_of_le hs with he | hlt
  · rw [he]
    exact cText_string h0
  · rw [show 99 - s.length = 98 - s.length + 1 by omega, List.set_cons_succ]
    exact cText_string h0

/-- Where the branches agree, the array held the name. -/
theorem ModesAgree.nameReady {a a' : Arrays} {u r : Handed}
    (hu : ArgVector (userMemory pcb ram) userArgs userPs strings)
    (hs : ArgVector (systemMemory ram) systemArgs systemPs strings)
    (hmax : strings.length ≤ 11) (hfits : (packed strings).length ≤ 100)
    (hurun : TrapProcessCreateHandler pcb a userArgs false ram = .ok u)
    (hsrun : TrapProcessCreateHandler pcb a' systemArgs true ram = .ok r)
    (h : ModesAgree pcb strings userPs systemPs u r) :
    NameReady (userMemory pcb ram) a'.name strings := by
  obtain ⟨hname, hram⟩ := hs.systemHandler_ok hsrun
  by_cases hne : strings = []
  · subst hne
    obtain ⟨rest, hu'⟩ := hu.userHandler hmax hfits a
    obtain rfl := Except.ok.inj (hurun.symm.trans hu')
    have hps : userPs = [] := List.forall₂_nil_right_iff.mp hu.texts
    have hsame := h.name
    rw [hname, set_last a'.name_length, cText_append_nul] at hsame
    refine hsame.symm.trans ((hu.userName rest).trans ?_)
    rw [hps]
    rfl
  · refine kept_nameReady hs hne hfits ?_
    rw [← hram]
    exact h.systemStrings

/-- Where the array held the name, the branches hand over the same name. -/
theorem NameReady.names (hu : ArgVector (userMemory pcb ram) userArgs userPs strings)
    (hs : ArgVector (systemMemory ram) systemArgs systemPs strings)
    (hfits : (packed strings).length ≤ 100) {a : Arrays}
    (h : NameReady (userMemory pcb ram) a.name strings) :
    (textAt (userMemory pcb ram) (namePointer userPs)).take 99 = cText (a.name.set 99 0) := by
  cases strings with
  | nil =>
    have hps : userPs = [] := List.forall₂_nil_right_iff.mp hu.texts
    rw [hps, set_last a.name_length, cText_append_nul]
    exact h.symm
  | cons s ss =>
    have hlen := packed_length_head hfits
    rw [hu.text.2 s ss rfl, List.take_take, List.take_of_length_le (by omega),
      cText_set hlen (hs.nonzero s List.mem_cons_self) h]

theorem take_set_last (l : List Byte) :
    (l.set (SIZE_ARG_BUFF - 1) 0).take 100 = l.take 100 :=
  List.take_set_of_le (by decide)

/-- The branches agree just when the array `name` held the name already, and the list
has at most one string, or no byte but NULs. -/
theorem creation_modes_agree_iff (hu : ArgVector (userMemory pcb ram) userArgs userPs strings)
    (hs : ArgVector (systemMemory ram) systemArgs systemPs strings)
    (hmax : strings.length ≤ 11) (hfits : (packed strings).length ≤ 100) (a a' : Arrays) :
    (∃ u r, TrapProcessCreateHandler pcb a userArgs false ram = .ok u ∧
      TrapProcessCreateHandler pcb a' systemArgs true ram = .ok r ∧
      ModesAgree pcb strings userPs systemPs u r) ↔
    NameReady (userMemory pcb ram) a'.name strings ∧
      (strings.length ≤ 1 ∨ ∀ s ∈ strings, s = []) := by
  obtain ⟨rest, hurun⟩ := hu.userHandler hmax hfits a
  have hpiled := piled_eq_iff (z := zeroed a'.allargs) (fun i hi => zeroed_getElem? a' hi)
    hs.nonzero hfits
  have hzeros : (zeroed a.allargs).take 100 = (zeroed a'.allargs).take 100 := by
    rw [zeroed_take, zeroed_take]
  rw [← overlay_take hzeros hfits] at hpiled
  constructor
  · rintro ⟨u, r, hu', hr', hagree⟩
    have hready := hagree.nameReady hu hs hmax hfits hu' hr'
    obtain ⟨-, hram⟩ := hs.systemHandler_ok hr'
    have hkept := hagree.systemStrings
    rw [hram] at hkept
    have hrun := @ArgVector.systemHandler_kept _ _ pcb _ _ hs hmax hfits a' hkept
    obtain rfl := Except.ok.inj (hu'.symm.trans hurun)
    obtain rfl := Except.ok.inj (hr'.symm.trans hrun)
    have hall := hagree.allargs
    rw [take_set_last, take_set_last] at hall
    exact ⟨hready, hpiled.mp hall⟩
  · rintro ⟨hready, hshape⟩
    have hkept : List.Forall₂
        (fun p t => Reads (systemMemory (overwritten ram systemPs a')) p (t ++ [0]))
        systemPs strings := by
      by_cases hne : strings = []
      · subst hne
        rw [List.forall₂_nil_right_iff.mp hs.texts]
        exact .nil
      · rw [overwritten_same hs hne hready]
        exact hs.texts.imp fun _ _ h => h.2
    refine ⟨_, _, hurun, hs.systemHandler_kept hmax hfits a' hkept, ?_, ?_, ?_, hkept⟩
    · rw [hu.userName rest]
      exact hready.names hu hs hfits
    · rw [take_set_last, take_set_last]
      exact hpiled.mpr hshape
    · exact hu.texts.imp fun _ _ h => h.2

/-! ## One string for both -/

/-- A vector for each branch, and the string of both. -/
def sharedString (s : List Byte) : List Byte :=
  [16, 0, BitVec.ofNat 32 (MEMORY_PAGE_SIZE + 16), 0].flatMap wordBytes ++ (s ++ [0])

theorem image_system_reads {image : List Byte} (h : bytes <+: image.drop n)
    (hn : n + bytes.length ≤ MEMORY_PAGE_SIZE) :
    Reads (systemMemory (imageRam image)) (BitVec.ofNat 32 (MEMORY_PAGE_SIZE + n)) bytes := by
  intro i v hv
  have hi := (List.getElem?_eq_some_iff.mp hv).1
  have hget : (image.drop n)[i]? = some v := by
    obtain ⟨post, hpost⟩ := h
    rw [← hpost, List.getElem?_append_left hi]
    exact hv
  have haddr : (BitVec.ofNat 32 (MEMORY_PAGE_SIZE + n + i)).toNat - MEMORY_PAGE_SIZE = n + i := by
    simp only [MEMORY_PAGE_SIZE] at hn ⊢
    rw [BitVec.toNat_ofNat]
    omega
  rw [List.getElem?_drop] at hget
  rw [place_ofNat]
  unfold systemMemory imageRam
  rw [haddr, List.getD_eq_getElem?_getD, hget]
  rfl

theorem sharedString_user (h0 : 0 ∉ s) (hs : s.length < 1000) :
    ArgVector (userMemory onePage (imageRam (sharedString s))) 0 [16] [s] := by
  refine ⟨?_, by simp, .cons ⟨h0, ?_⟩ .nil, fun h => absurd h (by simp)⟩
  · refine image_reads (n := 0) ?_ ?_
    · exact ⟨[BitVec.ofNat 32 (MEMORY_PAGE_SIZE + 16), 0].flatMap wordBytes ++ (s ++ [0]), rfl⟩
    · rw [flatMap_wordBytes_length]
      simp [MEMORY_PAGE_SIZE]
  · refine image_reads (n := 16) (List.prefix_refl _) ?_
    rw [List.length_append, List.length_singleton]
    simp only [MEMORY_PAGE_SIZE]
    omega

theorem sharedString_system (h0 : 0 ∉ s) (hs : s.length < 1000) :
    ArgVector (systemMemory (imageRam (sharedString s)))
      (BitVec.ofNat 32 (MEMORY_PAGE_SIZE + 8)) [BitVec.ofNat 32 (MEMORY_PAGE_SIZE + 16)] [s] := by
  refine ⟨?_, by simp [MEMORY_PAGE_SIZE], .cons ⟨h0, ?_⟩ .nil, fun h => absurd h (by simp)⟩
  · refine image_system_reads ⟨s ++ [0], rfl⟩ ?_
    rw [flatMap_wordBytes_length]
    simp [MEMORY_PAGE_SIZE]
  · refine image_system_reads (List.prefix_refl _) ?_
    rw [List.length_append, List.length_singleton]
    simp only [MEMORY_PAGE_SIZE]
    omega

/-- The array holds NULs, and the system branch copies one over the string `"a"`. -/
theorem system_creation_clears_the_name : ¬ ∀ (pcb : PCB) (ram : Ram) (userArgs systemArgs : Word)
    (userPs systemPs : List Word) (strings : List (List Byte)) (a a' : Arrays),
    ArgVector (userMemory pcb ram) userArgs userPs strings →
    ArgVector (systemMemory ram) systemArgs systemPs strings →
    strings.length ≤ 11 → (packed strings).length ≤ 100 →
    ∃ u r, TrapProcessCreateHandler pcb a userArgs false ram = .ok u ∧
      TrapProcessCreateHandler pcb a' systemArgs true ram = .ok r ∧
      ModesAgree pcb strings userPs systemPs u r := by
  intro hall
  have hu := sharedString_user (s := [97]) (by decide) (by decide)
  have hs := sharedString_system (s := [97]) (by decide) (by decide)
  have hfits : (packed [[97]]).length ≤ 100 := by decide
  obtain ⟨u, r, hurun, hrrun, hagree⟩ :=
    hall _ _ _ _ _ _ _ blankArrays blankArrays hu hs (by decide) hfits
  have hready := hagree.nameReady hu hs (by decide) hfits hurun hrrun
  have hfirst := List.prefix_iff_getElem?.mp hready 0 (by decide)
  exact absurd hfirst (by simp [blankArrays])

/-- Arrays whose `name` holds the string `"a"` before the call. -/
def namedArrays : Arrays where
  __ := blankArrays
  name := 97 :: List.replicate 99 0
  name_length := by rw [List.length_cons, List.length_replicate]

theorem creation_modes_agree_on_one : ∃ u r,
    TrapProcessCreateHandler onePage blankArrays 0 false (imageRam (sharedString [97])) = .ok u ∧
      TrapProcessCreateHandler onePage namedArrays (BitVec.ofNat 32 (MEMORY_PAGE_SIZE + 8)) true
        (imageRam (sharedString [97])) = .ok r ∧
      ModesAgree onePage [[97]] [16] [BitVec.ofNat 32 (MEMORY_PAGE_SIZE + 16)] u r :=
  (creation_modes_agree_iff (sharedString_user (by decide) (by decide))
    (sharedString_system (by decide) (by decide)) (by decide) (by decide) blankArrays
    namedArrays).mpr ⟨⟨List.replicate 98 0, rfl⟩, .inl (by decide)⟩

end dlxos
