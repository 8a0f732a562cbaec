-- The producers and consumers of `q4`, which wait on condition variables for
-- room and for characters. A producer tests for room once before it waits, and
-- no producer signals `c_fullslots`.
import DlxOs.SharedBuffer

namespace dlxos.q4

open Function monitor

/-! ## The programs -/

/-- A line of `producer.c`. -/
inductive ProducerLine where
  | loop
  | test
  | wait
  | insert
  | release
  | done
deriving DecidableEq

/-- A line of `consumer.c`. -/
inductive ConsumerLine where
  | loop
  | test
  | wait
  | remove
  | signal
  | release
  | done
deriving DecidableEq

inductive Sem where
  | s_procs_completed
deriving DecidableEq

inductive Cond where
  | c_fullslots
  | c_emptyslots
deriving DecidableEq

/-- `out_curr_idx` is counted up in the `Printf` after `lock_release`. -/
def producer (l : Loc ProducerLine) : Op (Loc ProducerLine) Buffer Cond Sem :=
  let i := l.out_curr_idx
  match l.line with
  | .loop =>
    if i < ITEM_SIZE then .acquire ⟨.test, i⟩ else .semSignal .s_procs_completed ⟨.done, i⟩
  | .test => .access fun cb => (cb, if cb.full then ⟨.wait, i⟩ else ⟨.insert, i⟩)
  | .wait => .wait .c_emptyslots ⟨.insert, i⟩
  | .insert => .access fun cb => (cb.insert (out_content i), ⟨.release, i⟩)
  | .release => .release ⟨.loop, i + 1⟩
  | .done => .done

def consumer (l : Loc ConsumerLine) : Op (Loc ConsumerLine) Buffer Cond Sem :=
  let i := l.out_curr_idx
  match l.line with
  | .loop =>
    if i < ITEM_SIZE then .acquire ⟨.test, i⟩ else .semSignal .s_procs_completed ⟨.done, i⟩
  | .test => .access fun cb => (cb, if cb.isEmpty then ⟨.wait, i⟩ else ⟨.remove, i⟩)
  | .wait => .wait .c_fullslots ⟨.remove, i⟩
  | .remove => .access fun cb => (cb.remove, ⟨.signal, i⟩)
  | .signal => .signal .c_emptyslots ⟨.release, i⟩
  | .release => .release ⟨.loop, i + 1⟩
  | .done => .done

variable {N : Nat}

def L : Proc N → Type
  | .makeprocs => ParentLine
  | .producer _ => Loc ProducerLine
  | .consumer _ => Loc ConsumerLine

/-- The lines between `lock_acquire` and `lock_release`. -/
def inside : ∀ p : Proc N, L p → Bool
  | .makeprocs, _ => false
  | .producer _, l => l.line ≠ .loop && l.line ≠ .done
  | .consumer _, l => l.line ≠ .loop && l.line ≠ .done

theorem producer_obeys (i : Fin N) (l : Loc ProducerLine) :
    (producer l).Obeys (inside (.producer i)) (inside (.producer i) l) := by
  rcases l with ⟨_ | _ | _ | _ | _ | _, i⟩ <;> simp only [producer]
  · split <;> simp [Op.Obeys, inside]
  · refine ⟨rfl, fun cb => ?_⟩
    dsimp only
    split <;> rfl
  all_goals simp [Op.Obeys, inside]

theorem consumer_obeys (i : Fin N) (l : Loc ConsumerLine) :
    (consumer l).Obeys (inside (.consumer i)) (inside (.consumer i) l) := by
  rcases l with ⟨_ | _ | _ | _ | _ | _ | _, i⟩ <;> simp only [consumer]
  · split <;> simp [Op.Obeys, inside]
  · refine ⟨rfl, fun cb => ?_⟩
    dsimp only
    split <;> rfl
  all_goals simp [Op.Obeys, inside]

/-- The processes that `makeprocs` creates, and its own wait for them. -/
def program (N : Nat) : Program (Proc N) L Buffer Cond Sem where
  op
    | .makeprocs => makeprocs .s_procs_completed
    | .producer _ => producer
    | .consumer _ => consumer
  inside := inside
  obeys
    | .makeprocs, l => by cases l <;> simp [makeprocs, Op.Obeys, inside]
    | .producer i, l => producer_obeys i l
    | .consumer i, l => consumer_obeys i l
  start
    | .makeprocs => .wait
    | .producer _ => ⟨.loop, 0⟩
    | .consumer _ => ⟨.loop, 0⟩
  outside := by rintro (_ | i | i) <;> rfl
  mem := .empty
  count _ := procsCompleted N

/-! ## Accounts -/

/-- The lines that use `char_buf`. -/
def does : ∀ p : Proc N, L p → Option Access
  | .makeprocs, _ => none
  | .producer _, l => if l.line = .insert then some .insert else none
  | .consumer _, l => if l.line = .remove then some .remove else none

theorem does_remove {i : Fin N} {l : Loc ConsumerLine} :
    does (.consumer i) l = some .remove ↔ l.line = .remove := by
  simp [does]

theorem does_producer {i : Fin N} {l : Loc ProducerLine} :
    does (.producer i) l ≠ some .remove := by
  simp [does]

/-- What a place in a program can be. -/
def sane : ∀ p : Proc N, L p → Prop
  | .makeprocs, _ => True
  | .producer _, l =>
    l.out_curr_idx + (if l.line = .loop ∨ l.line = .done then 0 else 1) ≤ ITEM_SIZE
  | .consumer _, _ => True

def made : ∀ p : Proc N, L p → Int
  | .producer _, l => l.out_curr_idx + if l.line = .release then 1 else 0
  | .makeprocs, _ | .consumer _, _ => 0

def took : ∀ p : Proc N, L p → Int
  | .consumer _, l => l.out_curr_idx + if l.line = .signal ∨ l.line = .release then 1 else 0
  | .makeprocs, _ | .producer _, _ => 0

theorem producer_step {i : Fin N} {l l' : Loc ProducerLine} {cb cb' : Buffer}
    (hl : sane (.producer i) l) (hn : (producer l).next cb = some (l', cb')) :
    sane (.producer i) l' ∧
      made (.producer i) l' = made (.producer i) l + (if l.line = .insert then 1 else 0) ∧
      Does (if l.line = .insert then some .insert else none) cb cb' := by
  rcases l with ⟨_ | _ | _ | _ | _ | _, k⟩ <;> simp only [producer] at hn
  · split at hn <;> cases hn
    · simpa [sane, made, Does] using by assumption
    · simp_all [sane, made, Does]
  · cases hn
    by_cases hfull : cb.full = true <;> simp_all [sane, made, Does]
  iterate 3
    · cases hn
      simp_all [sane, made, Does]
  · cases hn

theorem consumer_step {i : Fin N} {l l' : Loc ConsumerLine} {cb cb' : Buffer}
    (hn : (consumer l).next cb = some (l', cb')) :
    took (.consumer i) l' = took (.consumer i) l + (if l.line = .remove then 1 else 0) ∧
      Does (if l.line = .remove then some .remove else none) cb cb' := by
  rcases l with ⟨_ | _ | _ | _ | _ | _ | _, k⟩ <;> simp only [consumer] at hn
  · split at hn <;> cases hn <;> simp [took, Does]
  · cases hn
    by_cases he : cb.isEmpty = true <;> simp [took, Does, he]
  iterate 4
    · cases hn
      simp [took, Does]
  · cases hn

theorem account_step {p : Proc N} {l l' : L p} {cb cb' : Buffer} (hl : sane p l)
    (hn : ((program N).op p l).next cb = some (l', cb')) :
    sane p l' ∧ made p l' = made p l + (if does p l = some .insert then 1 else 0) ∧
      took p l' = took p l + (if does p l = some .remove then 1 else 0) ∧
      Does (does p l) cb cb' := by
  rcases p with _ | i | i
  · cases l <;> cases hn
    simp [sane, made, took, does, Does]
  · obtain ⟨hs, hm, hd⟩ := producer_step hl hn
    refine ⟨hs, ?_, ?_, hd⟩
    · simpa [does] using hm
    · simp [took, does]
  · obtain ⟨ht, hd⟩ := consumer_step hn
    refine ⟨trivial, ?_, ?_, hd⟩
    · simp [made, does]
    · simpa [does] using ht

/-- `out_curr_idx` counts the characters of a process. -/
def accounts (N : Nat) : Accounts (program N) where
  does := does
  made := made
  took := took
  sane := sane
  mem := rfl
  start := by rintro (_ | i | i) <;> simp [program, sane, made, took]
  step := account_step
  most := by
    rintro (_ | i | i) l hl
    · simp [does, share, made]
    · rcases l with ⟨_ | _ | _ | _ | _ | _, k⟩ <;> simp [sane, does, made, share] at hl ⊢ <;> omega
    · simp [does, share, made]

/-! ## What a consumer knows -/

/-- No process signals `c_fullslots`. -/
theorem never_signals {p : Proc N} {l : L p} :
    ¬ ((program N).op p l).Wakes (.cond .c_fullslots) := by
  rcases p with _ | i | i
  · cases l <;> simp [program, makeprocs, Op.Wakes]
  · rcases l with ⟨_ | _ | _ | _ | _ | _, k⟩ <;> simp only [program, producer]
    · split <;> simp [Op.Wakes]
    all_goals simp [Op.Wakes]
  · rcases l with ⟨_ | _ | _ | _ | _ | _ | _, k⟩ <;> simp only [program, consumer]
    · split <;> simp [Op.Wakes]
    all_goals simp [Op.Wakes]

/-- A consumer comes to the removal from its test, or it goes to sleep. -/
theorem consumer_goes {l : Loc ConsumerLine} {x : Point (Loc ConsumerLine) Cond Sem}
    {cb cb' : Buffer} (h : (consumer l).Goes cb x cb') (hx : x.loc.line = .remove) :
    x = .ready x.loc ∧ cb' = cb ∧ cb.head ≠ cb.tail ∨ x = .asleep (.cond .c_fullslots) x.loc := by
  rcases l with ⟨_ | _ | _ | _ | _ | _ | _, k⟩ <;> simp only [consumer] at h
  · split at h <;> cases h <;> cases hx
  · cases h
    by_cases he : cb.isEmpty = true
    · simp [he] at hx
    · refine .inl ⟨rfl, rfl, ?_⟩
      simpa [Buffer.isEmpty] using he
  · cases h
    exact .inr rfl
  iterate 3
    · cases h
      cases hx
  · cases h

theorem tests (N : Nat) : (accounts N).Tests (· = .cond .c_fullslots) where
  inside := by
    rintro (_ | i | i) l hd
    · cases hd
    · exact absurd hd (does_producer (i := i))
    · have hline := (does_remove (i := i)).mp hd
      simp [program, inside, hline]
  start := by rintro (_ | i | i) hd <;> cases hd
  goes := by
    rintro (_ | i | i) l x cb cb' hg hd
    · cases hd
    · exact absurd hd (does_producer (i := i))
    · rcases consumer_goes hg ((does_remove (i := i)).mp hd) with hready | hasleep
      · exact .inl hready
      · exact .inr ⟨_, rfl, hasleep⟩
  unwoken := by
    rintro p l w rfl
    exact never_signals

variable {s t : State (Proc N) L Buffer Cond Sem}

/-! ## The guards -/

/-- A producer finds room, and a consumer finds a character. -/
structure GuardsOk (s : State (Proc N) L Buffer Cond Sem) : Prop where
  inserts : ∀ p, Accesses does s p .insert →
    s.shared.mem.head < s.shared.mem.tail + (BUFFER_SIZE - 1)
  removes : ∀ p, Accesses does s p .remove → s.shared.mem.tail < s.shared.mem.head

/-- The buffer while nobody has the lock. -/
structure Free (h t : Nat) (sh : Shared (Proc N) Buffer Cond Sem) : Prop where
  lock : sh.lock = ⟨none, []⟩
  head : sh.mem.head = h
  tail : sh.mem.tail = t

variable {i : Fin N} {k h n : Nat} {sh : Shared (Proc N) Buffer Cond Sem}

theorem Free.full (hsh : Free h n sh) : sh.mem.full = ((h + 1) % BUFFER_SIZE == n) := by
  rw [Buffer.full, hsh.head, hsh.tail]

theorem Free.insert (hsh : Free h n sh) (c : Char) :
    Free (h + 1) n { sh with mem := sh.mem.insert c } :=
  ⟨hsh.lock, congrArg (· + 1) hsh.head, hsh.tail⟩

/-- One turn of the loop of a producer, while nobody else runs. -/
theorem produce (hk : k < ITEM_SIZE) (hsh : Free h n sh) (hfull : (h + 1) % BUFFER_SIZE ≠ n) :
    (program N).alone (.producer i) 4 (.ready ⟨.loop, k⟩, sh) =
      some (.ready ⟨.loop, k + 1⟩, { sh with mem := sh.mem.insert (out_content k) }) := by
  have hf : sh.mem.full = false := by rw [hsh.full]; simpa using hfull
  simp [Program.alone, program, producer, Shared.effect, Shared.take, fifo.Lock.apply, hk, hf,
    Shared.handed, hsh.lock]

/-- A producer that finds no room goes to sleep. -/
theorem produce_sleeps (hk : k < ITEM_SIZE) (hsh : Free h n sh)
    (hfull : (h + 1) % BUFFER_SIZE = n) :
    (program N).alone (.producer i) 3 (.ready ⟨.loop, k⟩, sh) =
      some (.asleep (.cond .c_emptyslots) ⟨.insert, k⟩, { sh with
        conds := update sh.conds .c_emptyslots (sh.conds .c_emptyslots ++ [.producer i]) }) := by
  have hf : sh.mem.full = true := by rw [hsh.full]; simpa using hfull
  simp [Program.alone, program, producer, Shared.effect, Shared.take, fifo.Lock.apply, hk, hf,
    Shared.handed, hsh.lock]

/-- A consumer that has removed a character, and signals next. -/
theorem comes_to_signal (hk : k < ITEM_SIZE) (hsh : Free h n sh) (hlt : n < h) :
    (program N).alone (.consumer i) 3 (.ready ⟨.loop, k⟩, sh) =
      some (.ready ⟨.signal, k⟩,
        { sh with lock := ⟨some (.consumer i), []⟩, mem := sh.mem.remove }) := by
  have he : sh.mem.isEmpty = false := by
    rw [Buffer.isEmpty, hsh.head, hsh.tail]
    simp only [beq_eq_false_iff_ne, ne_eq]
    omega
  simp [Program.alone, program, consumer, Shared.effect, Shared.take, fifo.Lock.apply, hk, he,
    hsh.lock]

theorem signal_wakes {p : Proc N} (ho : sh.lock.owner = some (.consumer i))
    (hq : sh.conds .c_emptyslots = [p]) :
    sh.effect (.consumer i) ((program N).op (.consumer i) ⟨.signal, k⟩) =
      some ⟨.ready ⟨.release, k⟩, { sh with conds := update sh.conds .c_emptyslots [] },
        some p⟩ := by
  simp [program, consumer, Shared.effect, ho, hq]

theorem consumer_releases (ho : sh.lock = ⟨some (.consumer i), []⟩) :
    (program N).alone (.consumer i) 1 (.ready ⟨.release, k⟩, sh) =
      some (.ready ⟨.loop, k + 1⟩, { sh with lock := ⟨none, []⟩ }) := by
  simp [Program.alone, program, consumer, Shared.effect, fifo.Lock.apply, Shared.handed, ho]

/-- Seven producers fill the buffer. One of them waits for room, and when a
consumer has made some, another one takes it first. -/
theorem exists_overtaken (hN : 7 ≤ N) : ∃ s, (program N).Reachable s ∧
    ∃ p, Accesses does s p .insert ∧
      s.shared.mem.head = s.shared.mem.tail + (BUFFER_SIZE - 1) := by
  obtain ⟨s, hs⟩ := exists_filled (g := program N) (fun _ k => ⟨.loop, k⟩)
    (fun n sh => Free n 0 sh ∧ sh.conds .c_emptyslots = []) (fun _ => rfl)
    ⟨⟨rfl, rfl, rfl⟩, rfl⟩ (fun n i k sh hn hk hsh => ⟨4, _, produce
      (by simp only [ITEM_SIZE]; omega)
      hsh.1 (by simp only [BUFFER_SIZE]; omega), hsh.1.insert _, hsh.2⟩)
    hN 63 le_rfl
  let first : Fin N := ⟨0, by omega⟩
  let second : Fin N := ⟨1, by omega⟩
  have hne : second ≠ first := by simp [first, second]
  obtain ⟨hfree, hconds⟩ := hs.shared
  -- the first producer goes to sleep
  have hrun1 := produce_sleeps (i := first) (k := 9) (by decide) hfree rfl
  obtain ⟨s1, hr1, hfirst1, hsh1, hother1⟩ := hs.reachable.alone (hs.producers first) hrun1
  have hfree1 : Free 63 0 s1.shared := by
    rw [hsh1]
    exact ⟨hfree.lock, hfree.head, hfree.tail⟩
  -- a consumer makes room, and wakes it
  have hcons1 : s1.pc (.consumer first) = .ready ⟨.loop, 0⟩ := by
    rw [hother1 _ (by simp), hs.consumers]
    rfl
  have hrun2 := comes_to_signal (i := first) (k := 0) (by decide) hfree1 (by decide)
  obtain ⟨s2, hr2, hcons2, hsh2, hother2⟩ := hr1.alone hcons1 hrun2
  have hqueue2 : s2.shared.conds .c_emptyslots = [.producer first] := by
    rw [hsh2, hsh1]
    simp [hconds]
  have hr3 := hr2.runs hcons2 (signal_wakes (p := .producer first) (by rw [hsh2]) hqueue2)
  generalize hs3 : s2.after _ _ = s3 at hr3
  have hfirst3 : s3.pc (.producer first) = .woken ⟨.insert, 9⟩ := by
    rw [← hs3, State.after_of_ne _ _ (by simp), if_pos rfl, hother2 _ (by simp), hfirst1]
    rfl
  have hcons3 : s3.pc (.consumer first) = .ready ⟨.release, 0⟩ := by
    rw [← hs3, State.after_self]
  have hother3 : ∀ q, q ≠ .consumer first → q ≠ .producer first → s3.pc q = s.pc q := by
    intro q hc hp
    rw [← hs3, State.after_of_ne _ _ hc, if_neg (by simpa using hp.symm), hother2 q hc,
      hother1 q hp]
  obtain ⟨s4, hr4, _, hsh4, hother4⟩ := hr3.alone hcons3
    (consumer_releases (by rw [← hs3, State.after_shared, hsh2]))
  have hfree4 : Free 63 1 s4.shared := by
    rw [hsh4, ← hs3, State.after_shared, hsh2]
    exact ⟨rfl, hfree1.head, congrArg (· + 1) hfree1.tail⟩
  -- the second producer takes the room
  have hsecond4 : s4.pc (.producer second) = .ready ⟨.loop, 9⟩ := by
    rw [hother4 _ (by simp), hother3 _ (by simp) (by simpa using hne), hs.producers]
    rfl
  obtain ⟨s5, hr5, _, hsh5, hother5⟩ := hr4.alone hsecond4
    (produce (by decide) hfree4 (by decide))
  have hfree5 : Free 64 1 s5.shared := hsh5 ▸ hfree4.insert _
  -- and the first one goes on without another test
  have hfirst5 : s5.pc (.producer first) = .woken ⟨.insert, 9⟩ := by
    rw [hother5 _ (by simpa using hne.symm), hother4 _ (by simp), hfirst3]
  have hr6 := hr5.again hfirst5
  refine ⟨_, hr6, .producer first, ⟨⟨.insert, 9⟩, ?_, by simp [does]⟩, ?_⟩
  · simp [Shared.take, fifo.Lock.apply, hfree5.lock]
  · simp [Shared.take, hfree5.head, hfree5.tail, BUFFER_SIZE]

theorem guards_iff (N : Nat) : (∀ s, (program N).Reachable s → GuardsOk s) ↔ N ≤ 6 := by
  constructor
  · intro h
    by_contra hN
    obtain ⟨s, hs, p, hp, hhead⟩ := exists_overtaken (N := N) (by omega)
    have := (h s hs).inserts p hp
    omega
  · refine fun hN s hs => ⟨fun p hp => ?_, fun p hp => (tests N).finds hs hp⟩
    have hhead := ((accounts N).counts hs).head_le p
    have hsmall : ITEM_SIZE * N ≤ 60 := Nat.mul_le_mul_left _ hN
    simp only [BUFFER_SIZE]
    split at hhead <;> omega

/-- With seven pairs, which fit in the process table, a producer that was woken
inserts where no room is left. -/
theorem insertion_without_room : FitsTable 7 ∧
    ∃ s, (program 7).Reachable s ∧ ∃ p, Accesses does s p .insert ∧
      ¬ s.shared.mem.head < s.shared.mem.tail + (BUFFER_SIZE - 1) := by
  obtain ⟨s, hs, p, hp, hhead⟩ := exists_overtaken le_rfl
  refine ⟨?_, s, hs, p, hp, hhead.not_lt⟩
  unfold FitsTable
  decide

end dlxos.q4
