-- The producers and consumers of `q3`, which count the cells of the buffer
-- with two semaphores, and change it under a lock. The indices are never taken
-- modulo `BUFFER_SIZE`, so in `q2` and in `q3` the seventh pair brings them past
-- the last cell.
import DlxOs.LockBuffer

namespace dlxos

open Function monitor

namespace q3

/-! ## The programs -/

/-- A line of `producer.c`. -/
inductive ProducerLine where
  | loop
  | acquire
  | insert
  | release
  | signal
  | done
deriving DecidableEq

/-- A line of `consumer.c`. -/
inductive ConsumerLine where
  | loop
  | acquire
  | remove
  | release
  | signal
  | done
deriving DecidableEq

/-- The semaphores of the programs. -/
inductive Sem where
  | s_procs_completed
  | s_fullslots
  | s_emptyslots
deriving DecidableEq

def producer (l : Loc ProducerLine) : Op (Loc ProducerLine) Buffer Empty Sem :=
  let i := l.out_curr_idx
  match l.line with
  | .loop =>
    if i < ITEM_SIZE then .semWait .s_emptyslots ⟨.acquire, i⟩
    else .semSignal .s_procs_completed ⟨.done, i⟩
  | .acquire => .acquire ⟨.insert, i⟩
  | .insert => .access fun cb => (cb.insert (out_content i), ⟨.release, i + 1⟩)
  | .release => .release ⟨.signal, i⟩
  | .signal => .semSignal .s_fullslots ⟨.loop, i⟩
  | .done => .done

def consumer (l : Loc ConsumerLine) : Op (Loc ConsumerLine) Buffer Empty Sem :=
  let i := l.out_curr_idx
  match l.line with
  | .loop =>
    if i < ITEM_SIZE then .semWait .s_fullslots ⟨.acquire, i⟩
    else .semSignal .s_procs_completed ⟨.done, i⟩
  | .acquire => .acquire ⟨.remove, i⟩
  | .remove => .access fun cb => (cb.remove, ⟨.release, i + 1⟩)
  | .release => .release ⟨.signal, i⟩
  | .signal => .semSignal .s_emptyslots ⟨.loop, i⟩
  | .done => .done

variable {N : Nat}

def L : Proc N → Type
  | .makeprocs => ParentLine
  | .producer _ => Loc ProducerLine
  | .consumer _ => Loc ConsumerLine

/-- The lines between `lock_acquire` and `lock_release`. -/
def inside : ∀ p : Proc N, L p → Bool
  | .makeprocs, _ => false
  | .producer _, l => l.line = .insert || l.line = .release
  | .consumer _, l => l.line = .remove || l.line = .release

theorem producer_obeys (i : Fin N) (l : Loc ProducerLine) :
    (producer l).Obeys (inside (.producer i)) (inside (.producer i) l) := by
  rcases l with ⟨_ | _ | _ | _ | _ | _, i⟩ <;> simp only [producer]
  · split <;> simp [Op.Obeys, inside]
  all_goals simp [Op.Obeys, inside]

theorem consumer_obeys (i : Fin N) (l : Loc ConsumerLine) :
    (consumer l).Obeys (inside (.consumer i)) (inside (.consumer i) l) := by
  rcases l with ⟨_ | _ | _ | _ | _ | _, i⟩ <;> simp only [consumer]
  · split <;> simp [Op.Obeys, inside]
  all_goals simp [Op.Obeys, inside]

/-- The processes that `makeprocs` creates, and its own wait for them. -/
def program (N : Nat) : Program (Proc N) L Buffer Empty Sem where
  op
    | .makeprocs => makeprocs .s_procs_completed
    | .producer _ => producer
    | .consumer _ => consumer
  inside := inside
  obeys
    | .makeprocs, l => by cases l <;> simp [makeprocs, Op.Obeys, inside]
    | .producer i, l => producer_obeys i l
    | .consumer i, l => consumer_obeys i l
  start
    | .makeprocs => .wait
    | .producer _ => ⟨.loop, 0⟩
    | .consumer _ => ⟨.loop, 0⟩
  outside := by rintro (_ | i | i) <;> rfl
  mem := .empty
  count
    | .s_procs_completed => procsCompleted N
    | .s_fullslots => 0
    | .s_emptyslots => BUFFER_SIZE

/-! ## Accounts -/

/-- The lines that use `char_buf`. -/
def does : ∀ p : Proc N, L p → Option Access
  | .makeprocs, _ => none
  | .producer _, l => if l.line = .insert then some .insert else none
  | .consumer _, l => if l.line = .remove then some .remove else none

/-- What a place in a program can be. -/
def sane : ∀ p : Proc N, L p → Prop
  | .makeprocs, _ => True
  | .producer _, l => l.out_curr_idx + (if l.line = .acquire ∨ l.line = .insert then 1 else 0) ≤
      ITEM_SIZE
  | .consumer _, _ => True

def made : ∀ p : Proc N, L p → Int
  | .producer _, l => l.out_curr_idx
  | .makeprocs, _ | .consumer _, _ => 0

def took : ∀ p : Proc N, L p → Int
  | .consumer _, l => l.out_curr_idx
  | .makeprocs, _ | .producer _, _ => 0

theorem producer_step {i : Fin N} {l l' : Loc ProducerLine} {cb cb' : Buffer}
    (hl : sane (.producer i) l) (hn : (producer l).next cb = some (l', cb')) :
    sane (.producer i) l' ∧
      (l'.out_curr_idx : Int) = l.out_curr_idx + (if l.line = .insert then 1 else 0) ∧
      Does (if l.line = .insert then some .insert else none) cb cb' := by
  rcases l with ⟨_ | _ | _ | _ | _ | _, k⟩ <;> simp only [producer] at hn
  · split at hn <;> cases hn
    · simpa [sane, Does] using by assumption
    · simp_all [sane, Does]
  · cases hn
    simp_all [sane, Does]
  · cases hn
    simp_all [sane, Does]
  · cases hn
    simp_all [sane, Does]
  · cases hn
    simp_all [sane, Does]
  · cases hn

theorem consumer_step {l l' : Loc ConsumerLine} {cb cb' : Buffer}
    (hn : (consumer l).next cb = some (l', cb')) :
    (l'.out_curr_idx : Int) = l.out_curr_idx + (if l.line = .remove then 1 else 0) ∧
      Does (if l.line = .remove then some .remove else none) cb cb' := by
  rcases l with ⟨_ | _ | _ | _ | _ | _, k⟩ <;> simp only [consumer] at hn
  · split at hn <;> cases hn <;> simp [Does]
  iterate 4
    · cases hn
      simp [Does]
  · cases hn

theorem account_step {p : Proc N} {l l' : L p} {cb cb' : Buffer} (hl : sane p l)
    (hn : ((program N).op p l).next cb = some (l', cb')) :
    sane p l' ∧ made p l' = made p l + (if does p l = some .insert then 1 else 0) ∧
      took p l' = took p l + (if does p l = some .remove then 1 else 0) ∧
      Does (does p l) cb cb' := by
  rcases p with _ | i | i
  · cases l <;> cases hn
    simp [sane, made, took, does, Does]
  · obtain ⟨hs, hm, hd⟩ := producer_step hl hn
    refine ⟨hs, ?_, ?_, hd⟩
    · simpa [made, does] using hm
    · simp [took, does]
  · obtain ⟨ht, hd⟩ := consumer_step hn
    refine ⟨trivial, ?_, ?_, hd⟩
    · simp [made, does]
    · simpa [took, does] using ht

/-- `out_curr_idx` counts the characters of a process. -/
def accounts (N : Nat) : Accounts (program N) where
  does := does
  made := made
  took := took
  sane := sane
  mem := rfl
  start := by rintro (_ | i | i) <;> simp [program, sane, made, took]
  step := account_step
  most := by
    rintro (_ | i | i) l hl
    · simp [does, share, made]
    · simp only [sane] at hl
      by_cases h : l.line = .insert
      · simp only [does, made, share, if_pos h, if_true]
        rw [if_pos (.inr h)] at hl
        exact_mod_cast hl
      · simp only [does, made, share, if_neg h, reduceCtorEq, if_false, Int.add_zero]
        exact_mod_cast Nat.le_of_add_right_le hl
    · simp [does, share, made]

/-! ## The semaphore of full cells -/

/-- What the processes ask of `s_fullslots`: a consumer asks once for each
character, and a producer signals after each insertion. -/
def asked : ∀ p : Proc N, L p → Int
  | .makeprocs, _ => 0
  | .producer _, l => (if l.line = .release ∨ l.line = .signal then 1 else 0) - l.out_curr_idx
  | .consumer _, l => l.out_curr_idx + if l.line = .acquire ∨ l.line = .remove then 1 else 0

theorem asked_step {p : Proc N} {l l' : L p} {cb cb' : Buffer}
    (hn : ((program N).op p l).next cb = some (l', cb')) :
    asked p l' = asked p l + ((program N).op p l).units .s_fullslots := by
  rcases p with _ | i | i
  · cases l <;> cases hn
    rfl
  · rcases l with ⟨_ | _ | _ | _ | _ | _, k⟩ <;> simp only [program, producer] at hn ⊢
    · split at hn <;> cases hn <;> simp [asked, Op.units, *]
    iterate 3
      · cases hn
        simp [asked, Op.units]
    · cases hn
      simp only [asked, Op.units]
      simp
      omega
    · cases hn
  · rcases l with ⟨_ | _ | _ | _ | _ | _, k⟩ <;> simp only [program, consumer] at hn ⊢
    · split at hn <;> cases hn <;> simp [asked, Op.units, *]
    iterate 4
      · cases hn
        simp [asked, Op.units]
    · cases hn

variable {s : State (Proc N) L Buffer Empty Sem}

/-- Only a consumer waits for a full cell, before it takes the lock. -/
theorem waits_full {p : Proc N} {l0 l : L p} {cb cb' : Buffer}
    (h : ((program N).op p l0).Goes cb (.asleep (.sem .s_fullslots) l) cb') :
    asked p l = took p l + 1 ∧ made p l = 0 := by
  rcases p with _ | i | i
  · cases l0 <;> cases h
  · rcases l0 with ⟨_ | _ | _ | _ | _ | _, k⟩ <;> simp only [program, producer] at h
    · split at h <;> cases h
    all_goals cases h
  · rcases l0 with ⟨_ | _ | _ | _ | _ | _, k⟩ <;> simp only [program, consumer] at h
    · split at h <;> cases h
      simp [asked, took, made]
    all_goals cases h

/-- Where a process does not wait for a full cell, it has asked for each
character that it took, and for one more when it comes to take one. -/
theorem asked_slack (p : Proc N) (l : L p) : 0 ≤ asked p l - took p l + made p l ∧
    (does p l = some .remove → asked p l - took p l + made p l = 1) := by
  rcases p with _ | i | i
  · simp [asked, took, made, does]
  · simp only [asked, took, made, does]
    constructor
    · split <;> omega
    · simp
  · simp only [asked, took, made, does]
    constructor
    · split <;> omega
    · intro hl
      have hline : l.line = .remove := by simpa using hl
      simp [hline]

/-- A process has got a unit for each character that it took, and a consumer
that comes to take one has got one more. -/
theorem got_slack (h : (program N).Reachable s) (p : Proc N) :
    0 ≤ s.got .s_fullslots asked p - took p (s.locs p) + made p (s.locs p) ∧
      (Accesses does s p .remove →
        1 ≤ s.got .s_fullslots asked p - took p (s.locs p) + made p (s.locs p)) := by
  unfold State.got
  obtain ⟨hslack, hrem⟩ := asked_slack p (s.locs p)
  split
  · rename_i hplace
    obtain ⟨_, _, _, hgoes⟩ := asleep_from h (by simp) p _ (point_of_place hplace)
    obtain ⟨hasked, hmade⟩ := waits_full hgoes
    refine ⟨by simp only [State.locs]; omega, ?_⟩
    rintro ⟨l, hpc, _⟩
    rw [hpc] at hplace
    cases hplace
  · refine ⟨by omega, ?_⟩
    rintro ⟨l, hpc, hd⟩
    have hl : s.locs p = l := by simp [State.locs, hpc]
    have := hrem (hl ▸ hd)
    omega

theorem remove_finds (h : (program N).Reachable s) {p : Proc N}
    (hp : Accesses does s p .remove) : s.shared.mem.tail < s.shared.mem.head := by
  have hlaw := semaphore_law (m := Sem.s_fullslots) asked (fun p l v l' v' hn => asked_step hn) h
  have hcount := count_nonneg (g := program N) (m := .s_fullslots) le_rfl h
  have hcounts := (accounts N).counts h
  have hstart : ∑ p, asked p ((program N).start p) = 0 :=
    Finset.sum_eq_zero fun p _ => by rcases p with _ | i | i <;> rfl
  have hslack : 1 ≤ ∑ q, (s.got .s_fullslots asked q - took q (s.locs q) + made q (s.locs q)) :=
    ((got_slack h p).2 hp).trans (Finset.single_le_sum (fun q _ => (got_slack h q).1)
      (Finset.mem_univ p))
  rw [Finset.sum_add_distrib, Finset.sum_sub_distrib] at hslack
  have hhead : (s.shared.mem.head : Int) = ∑ q, made q (s.locs q) := hcounts.head
  have htail : (s.shared.mem.tail : Int) = ∑ q, took q (s.locs q) := hcounts.tail
  rw [hstart] at hlaw
  have hzero : (program N).count .s_fullslots = 0 := rfl
  omega

/-! ## Seven pairs -/

/-- The buffer while nobody has the lock, or waits for it. -/
structure Free (h t : Nat) (sh : Shared (Proc N) Buffer Empty Sem) : Prop where
  lock : sh.lock = ⟨none, []⟩
  head : sh.mem.head = h
  fullslots : sh.sems .s_fullslots = ⟨(h : Int) - t, []⟩
  emptyslots : sh.sems .s_emptyslots = ⟨(BUFFER_SIZE : Int) - (h - t), []⟩

variable {i : Fin N} {k h t : Nat} {sh : Shared (Proc N) Buffer Empty Sem}

/-- One turn of the loop of a producer, while nobody else runs. -/
theorem produce (hk : k < ITEM_SIZE) (hsh : Free h t sh) (hroom : h < t + BUFFER_SIZE)
    (hle : t ≤ h) :
    ∃ sh', (program N).alone (.producer i) 5 (.ready ⟨.loop, k⟩, sh) =
      some (.ready ⟨.loop, k + 1⟩, sh') ∧ Free (h + 1) t sh' := by
  have hcount : ¬ (BUFFER_SIZE : Int) - (h - t) ≤ 0 := by omega
  have hpos : 0 < (h : Int) - t + 1 := by omega
  refine ⟨{ sh with
    mem := sh.mem.insert (out_content k)
    sems := update (update sh.sems .s_emptyslots ⟨BUFFER_SIZE - (h - t) - 1, []⟩)
      .s_fullslots ⟨h - t + 1, []⟩ }, ?_, hsh.lock, ?_, ?_, ?_⟩
  · simp [Program.alone, program, producer, Shared.effect, Shared.take, fifo.Lock.apply, hk,
      Shared.handed, hsh.lock, fifo.Sem.apply, hsh.emptyslots, hsh.fullslots, hcount, hpos,
      fifo.Sem.grants]
  · simp [Buffer.insert, hsh.head]
  · simp
    omega
  · simp
    omega

/-- A producer that comes to the insertion. -/
theorem comes_to_insert (hk : k < ITEM_SIZE) (hsh : Free h t sh) (hroom : h < t + BUFFER_SIZE) :
    ∃ sh', (program N).alone (.producer i) 2 (.ready ⟨.loop, k⟩, sh) =
      some (.ready ⟨.insert, k⟩, sh') ∧ sh'.mem.head = h := by
  have hcount : ¬ (BUFFER_SIZE : Int) - (h - t) ≤ 0 := by omega
  refine ⟨{ sh with
    lock := ⟨some (.producer i), []⟩
    sems := update sh.sems .s_emptyslots ⟨BUFFER_SIZE - (h - t) - 1, []⟩ }, ?_, hsh.head⟩
  simp [Program.alone, program, producer, Shared.effect, Shared.take, fifo.Lock.apply, hk,
    hsh.lock, fifo.Sem.apply, hsh.emptyslots, hcount]

/-- One turn of the loop of a consumer. -/
theorem consume (hk : k < ITEM_SIZE) (hsh : Free h t sh) (hlt : t < h)
    (hroom : h ≤ t + BUFFER_SIZE) :
    ∃ sh', (program N).alone (.consumer i) 5 (.ready ⟨.loop, k⟩, sh) =
      some (.ready ⟨.loop, k + 1⟩, sh') ∧ Free h (t + 1) sh' := by
  have hcount : ¬ (h : Int) - t ≤ 0 := by omega
  have hpos : 0 < (BUFFER_SIZE : Int) - (h - t) + 1 := by omega
  refine ⟨{ sh with
    mem := sh.mem.remove
    sems := update (update sh.sems .s_fullslots ⟨h - t - 1, []⟩)
      .s_emptyslots ⟨BUFFER_SIZE - (h - t) + 1, []⟩ }, ?_, hsh.lock, hsh.head, ?_, ?_⟩
  · simp [Program.alone, program, consumer, Shared.effect, Shared.take, fifo.Lock.apply, hk,
      Shared.handed, hsh.lock, fifo.Sem.apply, hsh.emptyslots, hsh.fullslots, hcount, hpos,
      fifo.Sem.grants]
  · simp
    omega
  · simp
    omega

/-- Seven producers fill the buffer, a consumer removes one character, and then
an insertion goes to cell 64. -/
theorem exists_overflow (hN : 7 ≤ N) : ∃ s, (program N).Reachable s ∧
    ∃ p, Accesses does s p .insert ∧ s.shared.mem.head = BUFFER_SIZE := by
  obtain ⟨s, hs⟩ := exists_filled (g := program N) (fun _ k => ⟨.loop, k⟩)
    (fun n => Free n 0) (fun _ => rfl) ⟨rfl, rfl, rfl, rfl⟩ (fun n i k sh hn hk hsh =>
      ⟨5, produce (by simp only [ITEM_SIZE]; omega) hsh (by simp only [BUFFER_SIZE]; omega)
        (by omega)⟩)
    hN 63 le_rfl
  let first : Fin N := ⟨0, by omega⟩
  let second : Fin N := ⟨1, by omega⟩
  -- the last cell, and room for one more character
  obtain ⟨sh1, hrun1, hsh1⟩ := produce (i := first) (k := 9) (by decide) hs.shared (by decide)
    (by decide)
  obtain ⟨s1, hr1, _, rfl, hother1⟩ := hs.reachable.alone (hs.producers first) hrun1
  have hpc1 : s1.pc (.consumer first) = .ready ⟨.loop, 0⟩ := by
    rw [hother1 _ (by simp), hs.consumers]
    rfl
  obtain ⟨sh2, hrun2, hsh2⟩ := consume (i := first) (k := 0) (by decide) hsh1 (by decide)
    (by decide)
  obtain ⟨s2, hr2, _, rfl, hother2⟩ := hr1.alone hpc1 hrun2
  -- and the next one goes past it
  have hpc2 : s2.pc (.producer second) = .ready ⟨.loop, 9⟩ := by
    rw [hother2 _ (by simp), hother1 _ (by simp [first, second]), hs.producers]
    rfl
  obtain ⟨sh3, hrun3, hhead⟩ := comes_to_insert (i := second) (k := 9) (by decide) hsh2 (by decide)
  obtain ⟨s3, hr3, hpc3, rfl, _⟩ := hr2.alone hpc2 hrun3
  exact ⟨s3, hr3, .producer second, ⟨_, hpc3, by simp [does]⟩, hhead⟩

theorem buffer_iff (N : Nat) :
    (∀ s, (program N).Reachable s → BufferOk does s) ↔ N ≤ 6 := by
  constructor
  · intro h
    by_contra hN
    obtain ⟨s, hs, p, hp, hhead⟩ := exists_overflow (N := N) (by omega)
    have := (h s hs).inserts p hp
    omega
  · intro hN s hs
    exact (accounts N).ok (fun s hs p => remove_finds hs) hN hs

end q3

/-! ## The two versions -/

/-- With the lock alone and with the semaphores, the buffer is right for up to
six pairs, and for no more. -/
theorem bounded_buffer_iff (N : Nat) :
    ((∀ s, (q2.program N).Reachable s → BufferOk q2.does s) ↔ N ≤ 6) ∧
      ((∀ s, (q3.program N).Reachable s → BufferOk q3.does s) ↔ N ≤ 6) :=
  ⟨q2.buffer_iff N, q3.buffer_iff N⟩

/-- Seven pairs fit in the process table, and insert past `char_buf`. -/
theorem insertion_past_the_buffer : FitsTable 7 ∧
    (∃ s, (q2.program 7).Reachable s ∧ ∃ p, Accesses q2.does s p .insert ∧
      ¬ s.shared.mem.head < BUFFER_SIZE) ∧
    ∃ s, (q3.program 7).Reachable s ∧ ∃ p, Accesses q3.does s p .insert ∧
      ¬ s.shared.mem.head < BUFFER_SIZE := by
  obtain ⟨s, hs, p, hp, hhead⟩ := q2.exists_overflow le_rfl
  obtain ⟨t, ht, q, hq, hlast⟩ := q3.exists_overflow le_rfl
  refine ⟨?_, ⟨s, hs, p, hp, hhead.not_lt⟩, t, ht, q, hq, hlast.not_lt⟩
  unfold FitsTable
  decide

end dlxos
